import MicroStore.Log

/-!
# The record grammar

A frame is a record with a key, and the bytes of a segment begin with a longest run of frames: `Frames
bs rs`.  The loops that scan a segment accept the records of that run and no others, whatever the bytes
are and whatever is done about a record (`scanRecords_frames`).  The index that a scan leaves leads to
every record it should, at the offset its frame starts at, if and only if these offsets are below 2^24:
`IndexValue` keeps 24 bits of them (`scan_places_iff`).

## What is here

* `RecordHeader.encode_decode`, `scanFrame_sound` — what the reader of a frame accepts is the bytes of a
  record.  This is the other direction of the round trips in `Record.lean`.
* `Frames` — the longest run.  Every file begins with exactly one (`Frames.unique`,
  `Frames.exists_frames`), and what follows it may be a torn frame or anything else (`Frames.of_torn`).
* `scanRecords_frames` — the loop stops, and it has done about each record of the run what it is given
  to do.
* `Index.Places` — the index leads to the records it should, at their offsets.
* `rebuild_shows`, `shows_finalize` — the two scans: `rebuild_index_from_segments` over all segments,
  `finalize_compaction` over segment 0.
* `scan_places_iff` — the result for both.

No assumption is made on the bytes but that there are less than `2 ^ 31` of them, so that the offsets of
the source do not wrap.
-/

set_option autoImplicit false

namespace MicroStore

/-! ## What the readers of a frame have read

Decoding is injective on frames: the fields of a header are the bytes they were read from. -/

/-- A field and what follows it. -/
theorem take_append_drop_add (bs : Bytes) (p n : Nat) :
    (bs.drop p).take n ++ bs.drop (p + n) = bs.drop p := by
  rw [← List.drop_drop, List.take_append_drop]

/-- A field is written back as it was read. -/
theorem toLE_field_mod {bs : Bytes} {pos n : Nat} (h : pos + n ≤ bs.length) :
    toLE n (field bs pos n % 256 ^ n) = (bs.drop pos).take n := by
  rw [toLE_mod, toLE_field h]

/-- The bytes of a header are those it was read from. -/
theorem RecordHeader.encode_decode {bs : Bytes} (h : bs.length = headerSize) :
    (decode bs).encode = bs := by
  have h21 : bs.length = 21 := h
  have h4 (p : Nat) (hp : p + 4 ≤ 21) : toLE 4 (UInt32.ofNat (field bs p 4)).toNat
      = (bs.drop p).take 4 := toLE_field_mod (by omega)
  have h2 (p : Nat) (hp : p + 2 ≤ 21) : toLE 2 (UInt16.ofNat (field bs p 2)).toNat
      = (bs.drop p).take 2 := toLE_field_mod (by omega)
  have h1 (p : Nat) (hp : p + 1 ≤ 21) : toLE 1 (UInt8.ofNat (field bs p 1)).toNat
      = (bs.drop p).take 1 := toLE_field_mod (by omega)
  have hlast : (bs.drop 17).take 4 = bs.drop 17 :=
    List.take_of_length_le (by rw [List.length_drop]; omega)
  rw [encode, decode]
  simp only [h4 0 (by decide), h1 4 (by decide), h1 5 (by decide), h2 6 (by decide),
    h4 8 (by decide), h4 12 (by decide), h1 16 (by decide), h4 17 (by decide), hlast]
  rw [take_append_drop_add bs 16 1, take_append_drop_add bs 12 4, take_append_drop_add bs 8 4,
    take_append_drop_add bs 6 2, take_append_drop_add bs 5 1, take_append_drop_add bs 4 1,
    take_append_drop_add bs 0 4, List.drop_zero]

/-- There is one commit marker. -/
theorem eq_commitBytes {bs : Bytes} (hlen : bs.length = commitSize)
    (h : commitMagic bs = magicCommit) : bs = commitBytes := by
  have h4 : toLE 4 (UInt32.ofNat (field bs 0 4)).toNat = (bs.drop 0).take 4 :=
    toLE_field_mod (by rw [hlen]; decide)
  rw [List.drop_zero, List.take_of_length_le (by rw [hlen]; decide)] at h4
  rw [← h4, commitBytes]
  exact congrArg (fun m : UInt32 => toLE 4 m.toNat) h

/-- **What the scan accepts is a frame.** -/
theorem scanFrame_sound {bs : Bytes} {hdr : RecordHeader} {key : Key}
    (h : scanFrame bs = some (hdr, key)) :
    ∃ r : Record, r.key ≠ [] ∧ r.hdr = hdr ∧ r.key = key ∧ r.bytes <+: bs := by
  rw [scanFrame] at h
  split at h
  · next hc =>
    generalize hhdr : RecordHeader.decode (bs.take headerSize) = hd at h hc
    obtain ⟨hlen, hmagic, hkey0, hkeyLen, hvalueLen, hkey, hcommit, hmark⟩ := hc
    obtain ⟨rfl, rfl⟩ := Prod.mk.inj (Option.some.inj h)
    have hvalue : ((bs.drop (headerSize + hd.keyLen.toNat)).take hd.length.toNat).length
        = hd.length.toNat := by
      rw [List.length_take, List.length_drop] at hcommit ⊢
      rw [commitSize] at hcommit
      omega
    refine ⟨⟨hd, _, (bs.drop (headerSize + hd.keyLen.toNat)).take hd.length.toNat, hmagic, hkey.symm,
      hvalue.symm, hkey.trans_le hkeyLen, hvalue.trans_le hvalueLen⟩, ?_, rfl, rfl, ?_⟩
    · intro hnil
      dsimp only at hnil
      rw [hnil] at hkey
      exact hkey0 (UInt8.toNat_inj.1 hkey.symm)
    · have hhead : hd.encode = bs.take headerSize := by
        rw [← hhdr]
        exact RecordHeader.encode_decode (by rw [List.length_take]; omega)
      refine ⟨bs.drop (headerSize + hd.keyLen.toNat + hd.length.toNat + commitSize), ?_⟩
      rw [Record.bytes, hhead, ← eq_commitBytes hcommit hmark]
      simp only [List.append_assoc]
      rw [take_append_drop_add, take_append_drop_add, take_append_drop_add, List.take_append_drop]
  · cases h

/-! ## The longest run of frames

A grammar in the plainest sense: a list of records is the run if their bytes are a beginning of the
file and no longer list has that property. -/

/-- `rs` is the longest run of frames that these bytes begin with. -/
structure Frames (bs : Bytes) (rs : List Record) : Prop where
  /-- The records have keys. -/
  keyed : ∀ r ∈ rs, r.key ≠ []
  /-- The file begins with their bytes. -/
  isPrefix : recordsBytes rs <+: bs
  /-- Every other run is a beginning of this one. -/
  longest : ∀ rs', (∀ r ∈ rs', r.key ≠ []) → recordsBytes rs' <+: bs → rs' <+: rs

namespace Frames

variable {bs tail : Bytes} {rs rs' : List Record}

/-- A run of frames is the longest if the scan stops behind it. -/
theorem of_stop (hkey : ∀ r ∈ rs, r.key ≠ []) (hstop : scanFrame tail = none) :
    Frames (recordsBytes rs ++ tail) rs where
  keyed := hkey
  isPrefix := List.prefix_append ..
  longest := by
    induction rs with
    | nil =>
      intro rs' hkey' hpre
      cases rs' with
      | nil => exact List.nil_prefix
      | cons r' rs' =>
        obtain ⟨rest, hrest⟩ := hpre
        rw [recordsBytes_cons, List.append_assoc] at hrest
        have h := @scanFrame_bytes r' (recordsBytes rs' ++ rest) (hkey' r' List.mem_cons_self)
        rw [hrest] at h
        cases hstop.symm.trans h
    | cons r rs ih =>
      intro rs' hkey' hpre
      cases rs' with
      | nil => exact List.nil_prefix
      | cons r' rs' =>
        obtain ⟨rest, hrest⟩ := hpre
        rw [recordsBytes_cons, recordsBytes_cons, List.append_assoc, List.append_assoc] at hrest
        -- both runs begin with the record that stands there
        have hr : r' = r := by
          have h' := @readRecord_bytes r' (recordsBytes rs' ++ rest)
          rw [hrest, readRecord_bytes] at h'
          exact (Option.some.inj h').symm
        subst hr
        have hrest' : recordsBytes rs' ++ rest = recordsBytes rs ++ tail :=
          List.append_cancel_left hrest
        exact List.cons_prefix_cons.2 ⟨rfl, ih (fun r h => hkey r (List.mem_cons_of_mem _ h)) rs'
          (fun r h => hkey' r (List.mem_cons_of_mem _ h)) ⟨rest, hrest'⟩⟩

/-- Behind the longest run of frames the scan stops. -/
theorem exists_tail (h : Frames bs rs) :
    ∃ tail, bs = recordsBytes rs ++ tail ∧ scanFrame tail = none := by
  obtain ⟨tail, rfl⟩ := h.isPrefix
  refine ⟨tail, rfl, ?_⟩
  cases hscan : scanFrame tail with
  | none => rfl
  | some x =>
    obtain ⟨r, hkey, -, -, hpre⟩ := scanFrame_sound hscan
    have hlong : rs ++ [r] <+: rs := by
      refine h.longest _ (fun r' hr' => ?_) ?_
      · rcases List.mem_append.1 hr' with hr' | hr'
        · exact h.keyed r' hr'
        · rw [List.mem_singleton.1 hr']
          exact hkey
      · rw [recordsBytes_append, recordsBytes_cons, recordsBytes_nil, List.append_nil]
        exact (List.prefix_append_right_inj _).2 hpre
    have hlen := hlong.length_le
    rw [List.length_append, List.length_singleton] at hlen
    omega

/-- There is one longest run. -/
theorem unique (h : Frames bs rs) (h' : Frames bs rs') : rs = rs' :=
  (h'.longest rs h.keyed h.isPrefix).eq_of_length_le
    (h.longest rs' h'.keyed h'.isPrefix).length_le

/-- Every string of bytes begins with a longest run of frames. -/
theorem exists_frames (bs : Bytes) : ∃ rs, Frames bs rs := by
  suffices h : ∃ rs tail, (∀ r ∈ rs, r.key ≠ []) ∧ bs = recordsBytes rs ++ tail ∧
      scanFrame tail = none by
    obtain ⟨rs, tail, hkey, rfl, hstop⟩ := h
    exact ⟨rs, of_stop hkey hstop⟩
  induction hn : bs.length using Nat.strong_induction_on generalizing bs with
  | _ n ih =>
    cases hscan : scanFrame bs with
    | none => exact ⟨[], bs, nofun, rfl, hscan⟩
    | some x =>
      obtain ⟨r, hkey, -, -, rest, rfl⟩ := scanFrame_sound hscan
      have hlt : rest.length < n := by
        rw [← hn, List.length_append, Record.length_bytes]
        exact Nat.lt_add_of_pos_left r.size_pos
      obtain ⟨rs, tail, hkeys, rfl, hstop⟩ := ih _ hlt rest rfl
      refine ⟨r :: rs, tail, ?_, ?_, hstop⟩
      · intro r' hr'
        rcases List.mem_cons.1 hr' with rfl | hr'
        · exact hkey
        · exact hkeys r' hr'
      · rw [recordsBytes_cons, List.append_assoc]

/-- Records with keys and behind them one that was cut off: the run is that of the records. -/
theorem of_torn {r : Record} (hkey : ∀ r ∈ rs, r.key ≠ []) (hpre : tail <+: r.bytes)
    (hne : tail ≠ r.bytes) : Frames (recordsBytes rs ++ tail) rs := by
  refine of_stop hkey (scanFrame_torn hpre ?_)
  rw [← r.length_bytes]
  exact Nat.lt_of_le_of_ne hpre.length_le fun h => hne (hpre.eq_of_length h)

end Frames

/-! ## The loops

Both scans are this loop with something of their own to do about a record. -/

section loops

variable {σ : Type} {fs : FileSystem} {bs : Bytes} {rs : List Record}

/-- A scan does what it does at the records of a run, in order, each with its offset. -/
theorem scanWith_recordsBytes {accept : Nat → RecordHeader → Key → σ → σ} {tail : Bytes}
    {fuel off : Nat} {s : σ} (seg : Nat) (hfuel : rs.length < fuel) (hkey : ∀ r ∈ rs, r.key ≠ [])
    (htail : scanFrame tail = none) : scanWith accept fuel (recordsBytes rs ++ tail) off s
      = (locate seg off rs).foldl (fun s t => accept t.off t.record.hdr t.record.key s) s := by
  induction rs generalizing fuel off s with
  | nil =>
    obtain ⟨fuel, rfl⟩ := Nat.exists_eq_add_of_lt hfuel
    rw [recordsBytes_nil, List.nil_append, scanWith, htail]
    rfl
  | cons r rs ih =>
    obtain ⟨fuel, rfl⟩ := Nat.exists_eq_add_of_lt (Nat.zero_lt_of_lt hfuel)
    rw [recordsBytes_cons, List.append_assoc, Nat.zero_add, scanWith,
      scanFrame_bytes (hkey r List.mem_cons_self)]
    dsimp only
    rw [Record.frameSize_hdr, List.drop_left' r.length_bytes]
    exact ih (by simp only [List.length_cons] at hfuel; omega)
      fun r' hr' => hkey r' (List.mem_cons_of_mem _ hr')

/-- The handle is open for reading, at the start of a file with these bytes. -/
structure Handle.At (f : Handle) (fs : FileSystem) (bs : Bytes) : Prop where
  /-- It can be read from. -/
  canRead : f.mode.canRead = true
  /-- It is at the beginning. -/
  pos : f.pos = 0
  /-- Of a file with these bytes. -/
  data : fs.data f.ino = bs

/-- The loop goes over the records of the run. -/
theorem wp_scanRecords_frames {E : Env} (hE : E.Reads fs) (hlen : bs.length < 2 ^ 31)
    (hrs : Frames bs rs) {f : Handle} (hf : f.At fs bs) (seg : Nat)
    {accept : Nat → RecordHeader → Key → σ → σ} {fuel : Nat} (hfuel : bs.length < fuel) {s : σ}
    {Q : Handle × σ → FileSystem → Prop} (hQ : ∀ f', Q (f',
      (locate seg 0 rs).foldl (fun s t => accept t.off t.record.hdr t.record.key s) s) fs) :
    E.wp (scanRecords accept fuel f 0 s) Q fs := by
  obtain ⟨tail, htail, hstop⟩ := hrs.exists_tail
  have hrest : f.rest fs = (fs.data f.ino).drop 0 := by rw [Handle.rest, hf.pos]
  have hdrop : (fs.data f.ino).drop 0 = recordsBytes rs ++ tail := by
    rw [hf.data, List.drop_zero, htail]
  have hle : rs.length < fuel := by
    have h := length_le_recordsBytes rs
    rw [htail, List.length_append] at hfuel
    omega
  refine wp_scanRecords hE fuel hf.canRead (by rw [hf.data]; exact hlen) hrest fun f' => ?_
  rw [hdrop, scanWith_recordsBytes seg hle hrs.keyed hstop]
  exact hQ f'

/-- **The loops accept the longest run of frames.**  Whatever they do about a record, they come to an
end, having done it at each record of the run, in order, each with the offset of its frame. -/
theorem scanRecords_frames (hlen : bs.length < 2 ^ 31) (hrs : Frames bs rs) {f : Handle}
    (hf : f.At fs bs) (seg : Nat) (accept : Nat → RecordHeader → Key → σ → σ) {fuel : Nat}
    (hfuel : bs.length < fuel) (s : σ) :
    ∃ f', Prog.exec posix (scanRecords accept fuel f 0 s) fs = ((f',
      (locate seg 0 rs).foldl (fun s t => accept t.off t.record.hdr t.record.key s) s), fs) := by
  have h : Env.plain.wp (scanRecords accept fuel f 0 s) (fun x fs' => fs' = fs ∧ x.2
      = (locate seg 0 rs).foldl (fun s t => accept t.off t.record.hdr t.record.key s) s) fs :=
    wp_scanRecords_frames (Env.plain_reads fs) hlen hrs hf seg hfuel fun f' => ⟨rfl, rfl⟩
  obtain ⟨h1, h2⟩ := Env.plain_exec h
  exact ⟨_, Prod.ext (Prod.ext rfl h2) h1⟩

end loops

/-! ## The index

What the index should lead to is the replay of the records; that it does is a matter of 24 bits. -/

/-- The index leads to these records and no others, each at its segment and offset. -/
def Index.Places (idx : Index) (m : Live) : Prop :=
  ∀ k, (idx.lookup k).map (fun v => (v.segment.toNat, v.offset.toNat))
    = (m k).map fun t => (t.seg, t.off)

/-- The offsets of the records fit into the index. -/
def Live.Reachable (m : Live) : Prop := ∀ k t, m k = some t → t.off < 2 ^ 24

/-- An index that shows a map places its records if their offsets fit. -/
theorem Index.Shows.places_iff {idx : Index} {m : Live} (h : idx.Shows m)
    (hseg : ∀ k t, m k = some t → t.seg < 256) : idx.Places m ↔ m.Reachable := by
  have hvalue (t : Located) (ht : t.seg < 256) :
      (t.indexValue.segment.toNat, t.indexValue.offset.toNat) = (t.seg, t.off) ↔ t.off < 2 ^ 24 := by
    have hs : t.indexValue.segment.toNat = t.seg := Nat.mod_eq_of_lt ht
    have ho : t.indexValue.offset.toNat = t.off % 2 ^ 24 := UInt24.toNat_ofNat_mod t.off
    rw [Prod.mk.injEq, hs, ho]
    omega
  refine ⟨fun hp k t ht => ?_, fun hr k => ?_⟩
  · have hk := hp k
    rw [h k, ht] at hk
    exact (hvalue t (hseg k t ht)).1 (Option.some.inj hk)
  · rw [h k]
    cases ht : m k with
    | none => rfl
    | some t => exact congrArg some ((hvalue t (hseg k t ht)).2 (hr k t ht))

/-- The records that do not delete their keys. -/
def kept (l : List Located) : List Located := l.filter fun t => ¬t.record.deletes

/-- Tombstones are left out. -/
theorem kept_cons {t : Located} {l : List Located} :
    kept (t :: l) = if t.record.deletes then kept l else t :: kept l := by
  by_cases hd : t.record.deletes
  · rw [kept, List.filter_cons_of_neg (by simp [hd]), if_pos hd, kept]
  · rw [kept, List.filter_cons_of_pos (by simp [hd]), if_neg hd, kept]

/-- The scan of a rebuild: records are inserted, tombstones remove. -/
theorem shows_rebuild {l : List Located} {idx : Index} {m : Live} {seg : Nat}
    (hl : ∀ t ∈ l, t.seg = seg) (h : idx.Shows m) :
    (l.foldl (fun idx t => scanApply (fun key idx => idx.erase key) seg t.off t.record.hdr
      t.record.key idx) idx).Shows (replay l m) := by
  induction l generalizing idx m with
  | nil => exact h
  | cons t l ih =>
    obtain rfl := hl t List.mem_cons_self
    rw [List.foldl_cons, replay_cons, scanApply]
    refine ih (fun t ht => hl t (List.mem_cons_of_mem _ ht)) ?_
    split
    · next hd => exact h.erase hd
    · next hd => exact h.insert hd

/-- The scan of a compaction passes over tombstones. -/
theorem shows_finalize {l : List Located} {idx : Index} {m : Live} {seg : Nat}
    (hl : ∀ t ∈ l, t.seg = seg) (h : idx.Shows m) :
    (l.foldl (fun idx t => scanApply (fun _ idx => idx) seg t.off t.record.hdr
      t.record.key idx) idx).Shows (replay (kept l) m) := by
  induction l generalizing idx m with
  | nil => exact h
  | cons t l ih =>
    obtain rfl := hl t List.mem_cons_self
    have hl' (t' : Located) (ht' : t' ∈ l) := hl t' (List.mem_cons_of_mem _ ht')
    rw [List.foldl_cons, scanApply, kept_cons]
    by_cases hd : t.record.deletes
    · rw [if_pos hd, if_pos (show t.record.hdr.flags &&& flagDelete ≠ 0 from hd)]
      exact ih hl' h
    · rw [if_neg hd, if_neg (show ¬t.record.hdr.flags &&& flagDelete ≠ 0 from hd)]
      exact ih hl' (h.insert hd)

/-! ## The two scans

The offsets of a scan are those of `locate`. -/

section scans

variable {fs : FileSystem} {bs : Bytes} {rs : List Record}

/-- The supply of rounds suffices. -/
theorem length_lt_loopFuel (hlen : bs.length < 2 ^ 31) : bs.length < loopFuel := by
  rw [loopFuel]
  omega

/-- The scan of a rebuild goes on with the index that the segments before have led to. -/
theorem wp_rebuildScan {E : Env} (hE : E.Reads fs) (hlen : bs.length < 2 ^ 31) (hrs : Frames bs rs)
    {f : Handle} (hf : f.At fs bs) {seg : Nat} {idx : Index} {m : Live} (h : idx.Shows m)
    {Q : Handle × Index → FileSystem → Prop}
    (hQ : ∀ f' idx', Index.Shows idx' (replay (locate seg 0 rs) m) → Q (f', idx') fs) :
    E.wp (scanLoop (fun key idx => idx.erase key) seg loopFuel f 0 idx) Q fs := by
  rw [scanLoop_eq]
  exact wp_scanRecords_frames hE hlen hrs hf seg (length_lt_loopFuel hlen) fun f' =>
    hQ f' _ (shows_rebuild (fun t ht => (mem_locate ht).1) h)

/-- The scan of a compaction starts from an empty index. -/
theorem wp_finalizeScan {E : Env} (hE : E.Reads fs) (hlen : bs.length < 2 ^ 31) (hrs : Frames bs rs)
    {f : Handle} (hf : f.At fs bs) {Q : Handle × Index → FileSystem → Prop}
    (hQ : ∀ f' idx', Index.Shows idx' (replay (kept (locate 0 0 rs)) fun _ => none) →
      Q (f', idx') fs) : E.wp (scanLoop (fun _ idx => idx) 0 loopFuel f 0 ∅) Q fs := by
  rw [scanLoop_eq]
  exact wp_scanRecords_frames hE hlen hrs hf 0 (length_lt_loopFuel hlen) fun f' =>
    hQ f' _ (shows_finalize (fun t ht => (mem_locate ht).1) Index.Shows.empty)

/-- The records of the segments, `n` of them, with their places. -/
def locateAll (segs : Nat → List Record) (n : Nat) : List Located :=
  (List.range n).flatMap fun s => locate s 0 (segs s)

/-- One segment more. -/
theorem locateAll_succ (segs : Nat → List Record) (n : Nat) :
    locateAll segs (n + 1) = locateAll segs n ++ locate n 0 (segs n) := by
  rw [locateAll, List.range_succ, List.flatMap_append, List.flatMap_singleton, locateAll]

/-- The segments are those below the count. -/
theorem seg_of_mem_locateAll {segs : Nat → List Record} {n : Nat} {t : Located}
    (h : t ∈ locateAll segs n) : t.seg < n := by
  obtain ⟨s, hs, ht⟩ := List.mem_flatMap.1 h
  rw [(mem_locate ht).1]
  exact List.mem_range.1 hs

/-- The bytes of a segment; a segment without a file has none. -/
def Store.segmentBytes (st : Store) (fs : FileSystem) (s : Nat) : Bytes :=
  (fs.file (st.segmentName s)).getD []

/-- The loop over the segments. -/
theorem wp_rebuildLoop_frames {E : Env} (hE : E.Reads fs) {st : Store} {segs : Nat → List Record}
    {n seg : Nat} (hlen : ∀ s < seg + n, (st.segmentBytes fs s).length < 2 ^ 31)
    (hsegs : ∀ s < seg + n, Frames (st.segmentBytes fs s) (segs s)) {idx : Index}
    (h : idx.Shows (replay (locateAll segs seg) fun _ => none)) {Q : Index → FileSystem → Prop}
    (hQ : ∀ idx', Index.Shows idx' (replay (locateAll segs (seg + n)) fun _ => none) → Q idx' fs) :
    E.wp (st.rebuildLoop n seg idx) Q fs := by
  induction n generalizing seg idx with
  | zero => exact Env.wp_ret (hQ idx h)
  | succ n ih =>
    have hnext : seg + 1 + n = seg + (n + 1) := by omega
    have hlen' := hlen seg (by omega)
    have hseg := hsegs seg (by omega)
    rw [← hnext] at hlen hsegs hQ
    have step (idx' : Index)
        (h' : idx'.Shows (replay (locate seg 0 (segs seg)) (replay (locateAll segs seg) fun _ => none))) :
        E.wp (st.rebuildLoop n (seg + 1) idx') Q fs := by
      refine ih hlen hsegs ?_ hQ
      rw [locateAll_succ, replay_append]
      exact h'
    rw [Store.rebuildLoop]
    refine wp_openRead hE (fun hnone => step idx ?_) fun i hi _ => ?_
    · rw [Store.segmentBytes, FileSystem.file_eq_none.2 hnone] at hseg
      rw [hseg.unique (@Frames.of_stop [] [] nofun scanFrame_nil)]
      exact h
    · rw [Store.segmentBytes, FileSystem.file_eq_some hi] at hlen' hseg
      refine Prog.wp_bind.2 (wp_rebuildScan hE hlen' hseg ⟨rfl, rfl, rfl⟩ h fun f' idx' h' => ?_)
      exact wp_close hE (step idx' h')

/-- **A rebuild leads to the last record of every key**, unless a tombstone follows it. -/
theorem rebuild_shows {st : Store} {segs : Nat → List Record}
    (hlen : ∀ s < st.count, (st.segmentBytes fs s).length < 2 ^ 31)
    (hsegs : ∀ s < st.count, Frames (st.segmentBytes fs s) (segs s)) :
    (Prog.exec posix st.rebuildIndexFromSegments fs).1.index.Shows
      (replay (locateAll segs st.count) fun _ => none) := by
  have h : Env.plain.wp st.rebuildIndexFromSegments (fun st' _ => st'.index.Shows
      (replay (locateAll segs st.count) fun _ => none)) fs := by
    have hcount : 0 + st.count = st.count := Nat.zero_add _
    rw [Store.rebuildIndexFromSegments]
    refine Prog.wp_bind.2 (wp_rebuildLoop_frames (Env.plain_reads fs) (by rw [hcount]; exact hlen)
      (by rw [hcount]; exact hsegs) Index.Shows.empty fun idx' h' => ?_)
    rw [hcount] at h'
    refine Env.wp_seq (Env.plain_wp _ _) fun _ _ _ => Env.wp_seq (Env.plain_wp _ _) fun _ _ _ =>
      Env.wp_seq (Env.plain_wp _ _) fun _ _ _ => h'
  exact Env.plain_exec h

/-- Segment numbers fit the index. -/
theorem seg_lt_of_replay {l : List Located} {m : Live} {k : Key} {t : Located}
    (hl : ∀ t ∈ l, t.seg < 256) (hm : ∀ k t, m k = some t → t.seg < 256)
    (h : replay l m k = some t) : t.seg < 256 := by
  rcases replay_eq_some h with h | ⟨hmem, -, -⟩
  · exact hm k t h
  · exact hl t hmem

/-- The same of one segment. -/
theorem seg_lt_of_mem_locate {seg : Nat} (hseg : seg < 256) {t : Located}
    (h : t ∈ locate seg 0 rs) : t.seg < 256 := (mem_locate h).1 ▸ hseg

/-- **The scans accept exactly the record grammar, and place what they accept if and only if its
offsets fit.**  A file of less than 2^31 bytes begins with a longest run of frames `rs`.  The loops
end, having accepted the frames of this run (`scanLoop` is `scanRecords` with the index kept up to
date, `scanLoop_eq`); the scan of a rebuild leads on from the index of the segments before to the
last record of every key, or to none if that is a tombstone, the scan of a compaction to the last one
that is no tombstone; a whole rebuild does so for all segments; and behind records that were written
whole, one that was cut off adds nothing to the run. -/
theorem scan_places_iff (hlen : bs.length < 2 ^ 31) {f : Handle} (hf : f.At fs bs) :
    ∃ rs, Frames bs rs ∧
      (∀ (σ : Type) (accept : Nat → RecordHeader → Key → σ → σ) (fuel : Nat) (s : σ),
        bs.length < fuel → ∃ f', Prog.exec posix (scanRecords accept fuel f 0 s) fs = ((f',
          (locate 0 0 rs).foldl (fun s t => accept t.off t.record.hdr t.record.key s) s), fs)) ∧
      (∀ seg < 256, ∀ (idx : Index) (m : Live), idx.Shows m → (∀ k t, m k = some t → t.seg < 256) →
        ((Prog.exec posix (scanLoop (fun key idx => idx.erase key) seg loopFuel f 0 idx)
            fs).1.2.Places (replay (locate seg 0 rs) m) ↔
          (replay (locate seg 0 rs) m).Reachable)) ∧
      ((Prog.exec posix (scanLoop (fun _ idx => idx) 0 loopFuel f 0 ∅) fs).1.2.Places
          (replay (kept (locate 0 0 rs)) fun _ => none) ↔
        (replay (kept (locate 0 0 rs)) fun _ => none).Reachable) ∧
      (∀ (st : Store) (segs : Nat → List Record),
        (∀ s < st.count, (st.segmentBytes fs s).length < 2 ^ 31) →
        (∀ s < st.count, Frames (st.segmentBytes fs s) (segs s)) →
        ((Prog.exec posix st.rebuildIndexFromSegments fs).1.index.Places
            (replay (locateAll segs st.count) fun _ => none) ↔
          (replay (locateAll segs st.count) fun _ => none).Reachable)) ∧
      ∀ (written : List Record) (torn : Bytes) (r : Record), (∀ r ∈ written, r.key ≠ []) →
        torn <+: r.bytes → torn ≠ r.bytes → bs = recordsBytes written ++ torn → rs = written := by
  obtain ⟨rs, hrs⟩ := Frames.exists_frames bs
  refine ⟨rs, hrs, fun σ accept fuel s hfuel => scanRecords_frames hlen hrs hf 0 accept hfuel s,
    fun seg hseg idx m h hm => ?_, ?_, fun st segs hlens hsegs => ?_,
    fun written torn r hkey hpre hne hbs => ?_⟩
  · have hw : Env.plain.wp (scanLoop (fun key idx => idx.erase key) seg loopFuel f 0 idx)
        (fun x _ => x.2.Shows (replay (locate seg 0 rs) m)) fs :=
      wp_rebuildScan (Env.plain_reads fs) hlen hrs hf h fun _ _ h' => h'
    exact (Env.plain_exec hw).places_iff fun k t =>
      seg_lt_of_replay (fun t => seg_lt_of_mem_locate hseg) hm
  · have hw : Env.plain.wp (scanLoop (fun _ idx => idx) 0 loopFuel f 0 ∅)
        (fun x _ => x.2.Shows (replay (kept (locate 0 0 rs)) fun _ => none)) fs :=
      wp_finalizeScan (Env.plain_reads fs) hlen hrs hf fun _ _ h' => h'
    exact (Env.plain_exec hw).places_iff fun k t => seg_lt_of_replay
      (fun t ht => seg_lt_of_mem_locate (by decide) (List.mem_of_mem_filter ht)) nofun
  · have hcount : st.count < 256 := st.segmentCount.toNat_lt
    exact (rebuild_shows hlens hsegs).places_iff fun k t => seg_lt_of_replay
      (fun t ht => Nat.lt_trans (seg_of_mem_locateAll ht) hcount) nofun
  · subst hbs
    exact hrs.unique (Frames.of_torn hkey hpre hne)

end scans

/-! ## Fixed files

Three records, and enough of them to go beyond 24 bits. -/

/-- A record of 32 bytes that stores six bytes under a key of one byte. -/
def Record.small (k : UInt8) : Record where
  hdr := ⟨magicRecord, 0, 1, 6, 0, 0, 0, 0⟩
  key := [k]
  value := [0, 0, 0, 0, 0, 0]
  magic_eq := rfl
  keyLen_eq := rfl
  length_eq := rfl
  key_le := show 1 ≤ maxKeyLen by decide
  value_le := by decide

/-- They have keys. -/
theorem Record.small_keyed {rs : List Record} (h : ∀ r ∈ rs, ∃ k, r = .small k) :
    ∀ r ∈ rs, r.key ≠ [] := by
  intro r hr
  obtain ⟨k, rfl⟩ := h r hr
  exact List.cons_ne_nil _ _

/-- A filesystem with these bytes behind its first inode. -/
def FileSystem.holding (bs : Bytes) : FileSystem := FileSystem.empty.setData 0 bs

/-- A handle at their start. -/
def Handle.first : Handle := ⟨0, 0, .read⟩

/-- It is at the beginning of the file. -/
theorem Handle.first_at (bs : Bytes) : Handle.first.At (.holding bs) bs :=
  ⟨rfl, rfl, FileSystem.data_setData_self⟩

/-- Two records, and a third that was cut off behind its key. -/
theorem scan_places_iff_sample :
    (Prog.exec posix (scanLoop (fun key idx => idx.erase key) 0 loopFuel .first 0 ∅)
      (.holding (recordsBytes [.small 1, .small 2] ++ (Record.small 3).bytes.take 22))).1.2.Places
        (replay (locate 0 0 [.small 1, .small 2]) fun _ => none) := by
  have hlen : (recordsBytes [.small 1, .small 2] ++ (Record.small 3).bytes.take 22).length
      < 2 ^ 31 := by decide
  obtain ⟨rs, -, -, hrebuild, -, -, htorn⟩ := scan_places_iff hlen (Handle.first_at _)
  obtain rfl := htorn _ _ (.small 3) (Record.small_keyed (by simp)) (List.take_prefix ..)
    (fun h => absurd (congrArg List.length h) (by decide)) rfl
  refine (hrebuild 0 (by decide) ∅ _ Index.Shows.empty nofun).2 fun k t ht => ?_
  obtain ⟨hmem, -, -⟩ := (replay_eq_some ht).resolve_left (by simp)
  simp only [locate, List.mem_cons, List.not_mem_nil, or_false] at hmem
  rcases hmem with rfl | rfl <;> decide

/-- The bytes of equal records. -/
theorem length_recordsBytes_replicate (n : Nat) (r : Record) :
    (recordsBytes (List.replicate n r)).length = n * r.size := by
  induction n with
  | zero => rw [List.replicate_zero, recordsBytes_nil, List.length_nil, Nat.zero_mul]
  | succ n ih =>
    rw [List.replicate_succ, recordsBytes_cons, List.length_append, Record.length_bytes, ih,
      Nat.succ_mul, Nat.add_comm]

/-- Records of one key that take up 2^24 bytes, and one of another key behind them. -/
def Record.farAway : List Record := List.replicate (2 ^ 19) (.small 1) ++ [.small 2]

/-- The record at offset 2^24 is not placed there. -/
theorem scan_misplaces : ¬∀ (bs : Bytes) (fs : FileSystem) (f : Handle) (rs : List Record),
    bs.length < 2 ^ 31 → f.At fs bs → Frames bs rs →
      (Prog.exec posix (scanLoop (fun key idx => idx.erase key) 0 loopFuel f 0 ∅) fs).1.2.Places
        (replay (locate 0 0 rs) fun _ => none) := by
  intro h
  have hsize : 2 ^ 19 * (Record.small 1).size = 2 ^ 24 := by decide
  have hoff : (recordsBytes (List.replicate (2 ^ 19) (Record.small 1))).length = 2 ^ 24 :=
    (length_recordsBytes_replicate _ _).trans hsize
  have hlen : (recordsBytes Record.farAway ++ []).length < 2 ^ 31 := by
    have hlast : (recordsBytes [Record.small 2]).length = 32 := rfl
    rw [Record.farAway, List.append_nil, recordsBytes_append, List.length_append, hoff, hlast]
    decide
  have hrs : Frames (recordsBytes Record.farAway ++ []) Record.farAway := by
    refine Frames.of_stop (Record.small_keyed fun r hr => ?_) scanFrame_nil
    rcases List.mem_append.1 hr with hr | hr
    · exact ⟨1, List.eq_of_mem_replicate hr⟩
    · exact ⟨2, List.mem_singleton.1 hr⟩
  have hplaces := h _ _ _ _ hlen (Handle.first_at _) hrs
  have hw : Env.plain.wp (scanLoop (fun key idx => idx.erase key) 0 loopFuel .first 0 ∅)
      (fun x _ => x.2.Shows (replay (locate 0 0 Record.farAway) fun _ => none))
      (.holding (recordsBytes Record.farAway ++ [])) :=
    wp_rebuildScan (Env.plain_reads _) hlen hrs (Handle.first_at _) Index.Shows.empty
      fun _ _ h' => h'
  have hreach := ((Env.plain_exec hw).places_iff fun k t => seg_lt_of_replay
    (fun t => seg_lt_of_mem_locate (by decide)) nofun).1 hplaces
  have hlast : replay (locate 0 0 Record.farAway) (fun _ => none) [2]
      = some ⟨0, 2 ^ 24, .small 2⟩ := by
    rw [Record.farAway, locate_append, replay_append, hoff, Nat.zero_add]
    exact Live.apply_self (replay (locate 0 0 (List.replicate (2 ^ 19) (.small 1))) fun _ => none)
      ⟨0, 2 ^ 24, .small 2⟩
  exact absurd (hreach [2] _ hlast) (Nat.lt_irrefl _)

end MicroStore
