import MicroStore.FileStore.Names
import MicroStore.Log

/-!
# The files of a store and what they represent

The operations work on bytes in files and on members of an object; what a user has in mind is a map from
keys to values.  This file says how the one represents the other.

## What is here

* `Settled` — the files as recovery leaves them alone.
* `Env.Fits` — what is assumed of the circumstances under which the operations are run.
* `Log` — what a store amounts to: its segments, the map of live keys and the index file.  A log keeps
  two maps.  `live` is what the index in memory shows, `saved` is what the index file leads to.  An
  evicted key is in the second and not in the first, because eviction does not reach the file.
* `Log.Ok` — the invariant of a log, in every circumstance.
* `Log.Ordered` and `Log.Tidy` — what holds besides as long as the segments can be scanned: the order of
  the records is the order of the operations, so a scan leads to what the index file leads to.
* `Disk` — the files represent a log.  `Rep` — a store object does so together with them.  `Active` —
  its active file is the end of the current segment.

`Active` is not part of `Rep`, because a manual compaction replaces the segments and opens none: the
active file is then no longer that of the current segment.

Each of these has a `frame` lemma: what does not touch the files concerned keeps it.
-/

set_option autoImplicit false

namespace MicroStore

/-! ## Changes to some of the store files

A frame of an operation is a set of store files.  Names that do not clash make it a set of paths. -/

/-- The names of the store files in `S`. -/
def Names (pre : Path) (S : StoreFile → Prop) (p : Path) : Prop :=
  ∃ a : StoreFile, a.Valid ∧ S a ∧ p = storePath pre a

/-- A file of the set is in the frame. -/
theorem mem_names {pre : Path} {S : StoreFile → Prop} {a : StoreFile} (ha : a.Valid) (hS : S a) :
    Names pre S (storePath pre a) := ⟨a, ha, hS, rfl⟩

/-- No other file is. -/
theorem NamesOk.not_mem {pre : Path} (h : NamesOk pre) {S : StoreFile → Prop} (a : StoreFile)
    (ha : a.Valid) (hS : ¬S a) : ¬Names pre S (storePath pre a) := by
  rintro ⟨b, hb, hSb, he⟩
  rw [h a b ha hb he] at hS
  exact hS hSb

/-- A larger set of files. -/
theorem Names.mono {pre : Path} {S T : StoreFile → Prop} (h : ∀ a, S a → T a) (p : Path)
    (hp : Names pre S p) : Names pre T p := by
  obtain ⟨a, ha, hS, rfl⟩ := hp
  exact ⟨a, ha, h a hS, rfl⟩

/-- The files a compaction works on besides the segments and the index. -/
def StoreFile.scratch : StoreFile → Prop
  | .journal | .tmp => True
  | .segment _ | .index => False

/-! ## Recovery

`recover_if_needed` reads the journal and acts on it.  Between operations there is nothing for it to
do, and a power loss is harmless wherever this is so. -/

/-- Recovery leaves the segments and the index alone: there is no valid journal, or one of a compaction
that had not been committed and either removed nothing or left no `compact.tmp`. -/
def Settled (pre : Path) (fs : FileSystem) : Prop :=
  ∀ bs, fs.file (storePath pre .journal) = some bs →
    bs.length < Journal.size ∨ (Journal.decode (bs.take Journal.size)).magic ≠ journalMagic ∨
    (Journal.decode (bs.take Journal.size)).state.toNat ≠ JournalState.commit.code ∧
      ((Journal.decode (bs.take Journal.size)).nextSeg = 0 ∨ fs.dir (storePath pre .tmp) = none)

namespace Settled

variable {pre : Path} {fs fs' : FileSystem}

/-- Without a journal there is nothing to recover. -/
theorem of_none (h : fs.dir (storePath pre .journal) = none) : Settled pre fs := by
  intro bs hbs
  cases (FileSystem.file_eq_none.2 h).symm.trans hbs

/-- The files recovery looks at are the journal and `compact.tmp`. -/
theorem frame {S : StoreFile → Prop} (h : Settled pre fs) (hn : NamesOk pre)
    (hf : Frame (Names pre S) fs fs') (hj : ¬S .journal) (ht : ¬S .tmp) : Settled pre fs' := by
  intro bs hbs
  rw [hf.file (hn.not_mem .journal trivial hj)] at hbs
  rw [hf.dir (hn.not_mem .tmp trivial ht)]
  exact h bs hbs

end Settled

/-! ## Circumstances -/

/-- How many segment files there can be: a compaction goes on in segment 1 even when there should be
only one. -/
def spanOf (count : Nat) : Nat := max 2 count

theorem le_spanOf (count : Nat) : count ≤ spanOf count := Nat.le_max_right ..

/-- With two segments or more there are as many as configured. -/
theorem spanOf_eq {count : Nat} (h : 2 ≤ count) : spanOf count = count := Nat.max_eq_right h

theorem spanOf_lt {count : Nat} (h : count < 256) : spanOf count < 256 := by
  rw [spanOf]
  omega

theorem two_le_spanOf (count : Nat) : 2 ≤ spanOf count := Nat.le_max_left ..

/-- Writes to the end of a log: a segment or the index file. -/
def Call.logs : Call → Prop
  | .write f _ => f.mode.appends = true
  | .open .. | .read .. | .seek .. | .tell .. | .flush .. | .close .. | .remove .. | .rename ..
  | .mkdir .. => False

/-- The faults a compaction survives: those of the journal, a failed opening of `compact.tmp`, and
short writes to it while segment 0 is still there. -/
def Scratch (pre : Path) (fs : FileSystem) : Call → Prop
  | .open p .write => p = storePath pre .journal ∨ p = storePath pre .tmp
  | .write f _ => fs.dir (storePath pre .journal) = some f.ino ∨
      fs.dir (storePath pre .tmp) = some f.ino ∧ fs.dir (storePath pre (.segment 0)) ≠ none
  | .open _ .read | .open _ .append | .open _ .readWrite | .open _ .readAppend
  | .read .. | .seek .. | .tell .. | .flush .. | .close .. | .remove .. | .rename .. | .mkdir .. =>
    False

namespace Env

/-- No call fails. -/
def Faultless (E : Env) : Prop := ∀ fs c, ¬E.allowed fs c

/-- Circumstances under which the operations of a store work: no segment outgrows its offsets, the
faults are those a compaction survives, and nothing is demanded at calls other than writes to a
log. -/
structure Fits (E : Env) (pre : Path) (count : Nat) : Prop where
  /-- Where there are no segments at all, no call fails. -/
  pos : 0 < count ∨ E.Faultless
  /-- No segment outgrows the 24 bits an offset has in the index. -/
  small : ∀ fs, E.rely fs → ∀ s < spanOf count, ∀ bs,
    fs.file (storePath pre (.segment s)) = some bs → bs.length < 2 ^ 24
  /-- Nothing is demanded but, in a run without faults, at the writes to a log while there is no
  journal. -/
  quiet : ∀ c fs, (E.Faultless → c.logs → fs.dir (storePath pre .journal) ≠ none) → E.inv c fs
  /-- What fails is what a compaction survives. -/
  mild : ∀ c fs, E.allowed fs c → Scratch pre fs c

namespace Fits

variable {E : Env} {pre : Path} {count : Nat} (h : E.Fits pre count) {fs : FileSystem}
include h

/-- A call that neither writes to a log nor belongs to the faults a compaction survives. -/
theorem ok {c : Call} (hlog : ¬c.logs) (hmild : ¬Scratch pre fs c) : E.Ok c fs :=
  ⟨h.quiet c fs fun _ hl => absurd hl hlog, fun ha => hmild (h.mild c fs ha)⟩

/-- Reading goes well. -/
theorem reads : E.Reads fs := by
  intro c hc
  cases c with
  | «open» p mode =>
    cases mode with
    | read => exact h.ok id id
    | write | append | readWrite | readAppend => exact hc.elim
  | read | seek | tell | flush | close => exact h.ok id id
  | write | remove | rename | mkdir => exact hc.elim

/-- Nothing is demanded where no log is written to. -/
theorem inv {c : Call} (hlog : ¬c.logs) : E.inv c fs := h.quiet c fs fun _ hl => absurd hl hlog

end Fits

end Env

/-! ## Logs

A log is data about the whole life of a store: of the segments every record ever written that a
compaction has not dropped, not only the ones that count. -/

/-- What a segment file holds: records, and possibly one at the end that was cut off. -/
structure Segment where
  /-- The whole records, in the order they were written. -/
  records : List Record
  /-- What follows the last of them, as a torn write leaves it. -/
  tail : Bytes

/-- The bytes of a segment file. -/
def Segment.bytes (g : Segment) : Bytes := recordsBytes g.records ++ g.tail

/-- What a store amounts to: its segments, the records its index leads to, and the index file with the
records that this leads to. -/
structure Log where
  /-- The segment files that are there. -/
  segs : Nat → Option Segment
  /-- What the index in memory shows. -/
  live : Live
  /-- What the index file leads to. -/
  saved : Live
  /-- The entries of the index file. -/
  entries : List IndexEntry
  /-- What follows the last of them. -/
  indexTail : Bytes

namespace Log

variable {L : Log} {t : Located}

/-- The places of the records of a segment. -/
def segLocated (L : Log) (s : Nat) : List Located :=
  match L.segs s with
  | none => []
  | some g => locate s 0 g.records

/-- The places of all records of the first `n` segments, in the order they were written. -/
def located (L : Log) : Nat → List Located
  | 0 => []
  | n + 1 => L.located n ++ L.segLocated n

/-- The record stands where it says. -/
def Has (L : Log) (t : Located) : Prop :=
  ∃ g, L.segs t.seg = some g ∧ t.record.bytes <+: g.bytes.drop t.off

/-- Records of a segment are located in it. -/
theorem seg_of_mem_segLocated {s : Nat} (h : t ∈ L.segLocated s) : t.seg = s := by
  rw [segLocated] at h
  split at h
  · cases h
  · exact (mem_locate h).1

/-- The records of a log are those of its segments. -/
theorem mem_located {n : Nat} : t ∈ L.located n ↔ t.seg < n ∧ t ∈ L.segLocated t.seg := by
  induction n with
  | zero => simp [located]
  | succ n ih =>
    rw [located, List.mem_append, ih]
    constructor
    · rintro (⟨h, ht⟩ | ht)
      · exact ⟨Nat.lt_succ_of_lt h, ht⟩
      · obtain rfl := seg_of_mem_segLocated ht
        exact ⟨Nat.lt_succ_self _, ht⟩
    · rintro ⟨h, ht⟩
      rcases Nat.lt_succ_iff_lt_or_eq.1 h with h | rfl
      · exact .inl ⟨h, ht⟩
      · exact .inr ht

/-- Where a record is, there is a segment. -/
theorem exists_of_mem_segLocated {s : Nat} (h : t ∈ L.segLocated s) :
    ∃ g, L.segs s = some g ∧ t ∈ locate s 0 g.records := by
  rw [segLocated] at h
  split at h
  · cases h
  · next g hg => exact ⟨g, hg, h⟩

/-- A record of a segment stands where it says. -/
theorem has_of_mem_segLocated (h : t ∈ L.segLocated t.seg) : L.Has t := by
  obtain ⟨g, hg, hmem⟩ := exists_of_mem_segLocated h
  exact ⟨g, hg, prefix_of_mem_locate g.tail hmem⟩

/-- Segments that are not there contribute nothing. -/
theorem located_eq {c n : Nat} (habove : ∀ s, c < s → L.segs s = none) (hn : c < n) :
    L.located n = L.located (c + 1) := by
  induction n with
  | zero => omega
  | succ n ih =>
    rcases Nat.lt_succ_iff_lt_or_eq.1 hn with h | rfl
    · rw [located, ih h, segLocated, habove n h, List.append_nil]
    · rfl

/-- The number of bytes in the first `n` segments. -/
def size (L : Log) : Nat → Nat
  | 0 => 0
  | n + 1 => L.size n + ((L.segs n).elim [] Segment.bytes).length

/-- What holds of every log: the index leads nowhere the index file does not lead to, this leads to
records that put their key, within reach of the offsets of the index, and there are not many more
entries in the index file than bytes in the segments. -/
structure Ok (L : Log) (count : Nat) : Prop where
  /-- No segment files beyond the ones a store looks for. -/
  segs_lt : ∀ s g, L.segs s = some g → s < spanOf count
  /-- The file knows of what is in memory. -/
  sub : ∀ k t, L.live k = some t → L.saved k = some t
  /-- Every entry of the index stands for a record that is there. -/
  has : ∀ k t, L.saved k = some t → L.Has t
  /-- That record has the key of the entry. -/
  key : ∀ k t, L.saved k = some t → t.record.key = k
  /-- It is not a tombstone. -/
  put : ∀ k t, L.saved k = some t → ¬t.record.deletes
  /-- Its offset fits the index. -/
  off : ∀ k t, L.saved k = some t → t.off < 2 ^ 24
  /-- Replaying the index file yields `saved`. -/
  entries : Index.Shows (L.entries.foldl (fun idx e => e.apply idx) ∅) L.saved
  /-- There is no more than one entry for each record, so the supply of rounds suffices to read them. -/
  entries_le : 25 * L.entries.length ≤ 25 * 2 ^ 31 + L.size (spanOf count)

/-- A log that puts and removes of keys that are not empty have led to, with at least two segments.

Nothing stands behind segment `cur` and nothing behind the records of a segment, so what is appended next
comes last in a scan.  A scan of the segments therefore leads to every record the index file leads to; it
may lead to more, since an eviction writes nothing into the segments. -/
structure Ordered (L : Log) (count cur : Nat) : Prop where
  /-- With one segment alone the store would go on in segment 1, which no scan of it reaches. -/
  two_le : 2 ≤ count
  /-- The segments behind the current one are not there. -/
  above : ∀ s, cur < s → L.segs s = none
  /-- No segment ends in bytes that are not a record. -/
  tail : ∀ s g, L.segs s = some g → g.tail = []
  /-- A scan stops at an empty key, so there is none. -/
  key : ∀ s g, L.segs s = some g → ∀ r ∈ g.records, r.key ≠ []
  /-- What the index file leads to, a scan leads to as well. -/
  scan : ∀ k t, L.saved k = some t → MicroStore.replay (L.located count) (fun _ => none) k = some t

/-- A log that only puts without a TTL and removes of keys that are not empty have led to, with nothing
evicted: scanning the segments leads to the map of the index, too, and to no more. -/
structure Tidy (L : Log) (count cur : Nat) : Prop extends L.Ordered count cur where
  /-- Nothing expires. -/
  ttl : ∀ s g, L.segs s = some g → ∀ r ∈ g.records, ¬r.deletes → r.hdr.ttl = 0
  /-- Nothing is evicted. -/
  saved : L.saved = L.live
  /-- What is live is what a scan leads to. -/
  replay : L.live = MicroStore.replay (L.located count) (fun _ => none)

/-- The value a key has. -/
def view (L : Log) (k : Key) : Option Value := (L.live k).map fun t => t.record.value

/-- In an ordered log the index file leads to a record of a segment that is there. -/
theorem Ordered.mem {count cur : Nat} (h : L.Ordered count cur) {k : Key} {t : Located}
    (ht : L.saved k = some t) :
    ∃ g, L.segs t.seg = some g ∧ t.record ∈ g.records ∧ ¬t.record.deletes := by
  obtain ⟨hmem, -, hd⟩ := (replay_eq_some (h.scan k t ht)).resolve_left (by simp)
  obtain ⟨g, hg, hr⟩ := exists_of_mem_segLocated (mem_located.1 hmem).2
  exact ⟨g, hg, record_mem_of_mem_locate hr, hd⟩

/-- The index file of an ordered log leads to no empty key. -/
theorem Ordered.key_ne {count cur : Nat} (h : L.Ordered count cur) {k : Key} {t : Located}
    (ht : L.saved k = some t) : t.record.key ≠ [] := by
  obtain ⟨g, hg, hr, -⟩ := h.mem ht
  exact h.key _ g hg _ hr

/-- The records of a tidy log have neither an empty key nor a TTL. -/
theorem Tidy.record {count cur : Nat} (h : L.Tidy count cur) {k : Key} {t : Located}
    (ht : L.live k = some t) : t.record.key ≠ [] ∧ t.record.hdr.ttl = 0 := by
  rw [← h.saved] at ht
  obtain ⟨g, hg, hr, hd⟩ := h.mem ht
  exact ⟨h.key_ne ht, h.ttl _ g hg _ hr hd⟩

end Log

/-! ## Representation

`Disk` is about files alone, so it is also what a restart starts from; `Rep` is about a store object
that is running. -/

/-- The files represent a log. -/
structure Disk (pre : Path) (count : Nat) (fs : FileSystem) (L : Log) : Prop where
  /-- Different files have different names. -/
  names : NamesOk pre
  /-- Segment numbers fit one byte. -/
  lt : count < 256
  /-- The log is well formed. -/
  ok : L.Ok count
  /-- Each segment file holds its segment, and there are no others. -/
  segs : ∀ s < spanOf count, fs.file (storePath pre (.segment s)) = (L.segs s).map Segment.bytes
  /-- The index file holds its entries. -/
  index : fs.file (storePath pre .index) = some (entriesBytes L.entries ++ L.indexTail)
  /-- Recovery has nothing to do. -/
  journal : Settled pre fs

/-- A store object and the files represent a log. -/
structure Rep (st : Store) (fs : FileSystem) (L : Log) : Prop where
  /-- The files represent the log. -/
  disk : Disk st.basePrefix st.count fs L
  /-- `init` has succeeded. -/
  valid : st.valid = true
  /-- Without segments no compaction has failed. -/
  cool : 0 < st.count ∨ st.compactInCooldown = false
  /-- Nothing is held back. -/
  buf : st.writeBuf = []
  /-- The index in memory shows the live keys. -/
  shows : st.index.Shows L.live
  /-- The index file is open for appending. -/
  indexFile : ∃ h, st.indexFile = some h ∧ h.mode = .append ∧ fs.dir st.indexName = some h.ino
  /-- The current segment is one of the store. -/
  cur : st.currentSegment < spanOf st.count

/-- The active file is the end of the current segment. -/
structure Active (st : Store) (fs : FileSystem) (L : Log) (g : Segment) : Prop where
  /-- The current segment is open for appending. -/
  file : ∃ f, st.activeFile = some f ∧ f.mode = .readAppend ∧
    fs.dir (st.segmentName st.currentSegment) = some f.ino
  /-- Its content is this segment of the log. -/
  segment : L.segs st.currentSegment = some g
  /-- The next record goes to its end. -/
  offset : st.currentOffset = g.bytes.length

namespace Disk

variable {pre : Path} {count : Nat} {fs fs' : FileSystem} {L : Log}

/-- The scratch files may change as long as they leave recovery nothing to do. -/
theorem frame (h : Disk pre count fs L) (hf : Frame (Names pre StoreFile.scratch) fs fs')
    (hj : Settled pre fs') : Disk pre count fs' L :=
  { h with
    segs := fun s hs => by
      rw [hf.file (h.names.not_mem (.segment s) (Nat.lt_trans hs (spanOf_lt h.lt)) id)]
      exact h.segs s hs
    index := by
      rw [hf.file (h.names.not_mem .index trivial id)]
      exact h.index
    journal := hj }

/-- The file of a segment that is there. -/
theorem dir_segment (h : Disk pre count fs L) {s : Nat} {g : Segment} (hg : L.segs s = some g) :
    ∃ i, fs.dir (storePath pre (.segment s)) = some i ∧ fs.data i = g.bytes := by
  have hfile := h.segs s (h.ok.segs_lt s g hg)
  rw [hg, Option.map_some, FileSystem.file, Option.map_eq_some_iff] at hfile
  exact hfile

/-- The index file is there. -/
theorem dir_index (h : Disk pre count fs L) :
    ∃ i, fs.dir (storePath pre .index) = some i ∧
      fs.data i = entriesBytes L.entries ++ L.indexTail :=
  Option.map_eq_some_iff.1 h.index

end Disk

namespace Rep

variable {st : Store} {fs fs' : FileSystem} {L : Log}

/-- A change of the journal and `compact.tmp` alone. -/
theorem frame (h : Rep st fs L) (hf : Frame (Names st.basePrefix StoreFile.scratch) fs fs')
    (hj : Settled st.basePrefix fs') : Rep st fs' L :=
  { h with
    disk := h.disk.frame hf hj
    indexFile := by
      obtain ⟨i, hi, hm, hd⟩ := h.indexFile
      exact ⟨i, hi, hm, (hf.dir (h.disk.names.not_mem .index trivial id)).trans hd⟩ }

/-- What the store finds at the index entry of a live key is its record's value. -/
theorem fetch (h : Rep st fs L) {k : Key} {t : Located} (ht : L.live k = some t) :
    ∃ i, fs.dir (st.segmentName t.indexValue.segment.toNat) = some i ∧
      t.record.bytes <+: (fs.data i).drop t.indexValue.offset.toNat := by
  have ht := h.disk.ok.sub k t ht
  obtain ⟨g, hg, hpre⟩ := h.disk.ok.has k t ht
  obtain ⟨i, hi, hdata⟩ := h.disk.dir_segment hg
  have hlt := Nat.lt_trans (h.disk.ok.segs_lt _ g hg) (spanOf_lt h.disk.lt)
  have hseg : t.indexValue.segment.toNat = t.seg := Nat.mod_eq_of_lt hlt
  have hoff : t.indexValue.offset.toNat = t.off := UInt24.toNat_ofNat (h.disk.ok.off k t ht)
  rw [hseg, hoff]
  refine ⟨i, hi, ?_⟩
  rw [hdata]
  exact hpre

end Rep

theorem Active.frame {st : Store} {fs fs' : FileSystem} {L : Log} {g : Segment}
    (h : Active st fs L g) (hr : Rep st fs L)
    (hf : Frame (Names st.basePrefix StoreFile.scratch) fs fs') : Active st fs' L g :=
  { h with
    file := by
      obtain ⟨f, hf1, hm, hd⟩ := h.file
      refine ⟨f, hf1, hm, (hf.dir (hr.disk.names.not_mem (.segment _) ?_ id)).trans hd⟩
      exact Nat.lt_trans hr.cur (spanOf_lt hr.disk.lt) }

end MicroStore
