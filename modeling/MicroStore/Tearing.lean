import MicroStore.Rebuilding

/-!
# Power losses while a record is appended

`put` and `remove` append a record to the active segment and an entry to the index file.  Whatever part
of either has reached the disk when the power goes, the next `init` finds the map as it was or as it
would have been, with the index file and without it.

## What is here

* `Log.torn` — a log with part of a record behind a segment and part of an entry behind the index file.
  No reader takes either for whole.
* `Disk.torn`, `Disk.rebuilds` — a start from such files, with the index file and without.
* `Config.Atomic` — the statement at one moment: one of two maps answers for all keys, whether the index
  file is kept or lost.
* `Leads` — a record leads from one map to the other.
* `Holds.torn_record`, `Holds.torn_entry` — the two writes, any prefix of which may have reached the
  disk.
* `Config.tornEnv`, `Holds.wp_torn` — the same at every write of an operation; a rotation and a
  compaction may come before.
* `append_atomic` — the result.

With the index file a record without its entry is not found, and without it a record that is whole is;
so which of the two maps it is may depend on the index file, but not on the key.
-/

set_option autoImplicit false

namespace MicroStore

/-! ## Torn logs

The bytes that are left are a beginning of what was to be written. -/

/-- A segment with something behind it. -/
theorem Segment.bytes_torn {g : Segment} (h : g.tail = []) (z : Bytes) :
    Segment.bytes { g with tail := z } = g.bytes ++ z := by
  rw [Segment.bytes, Segment.bytes, h, List.append_nil]

namespace Log

variable {L : Log} {s count : Nat} {g : Segment} {z w : Bytes}

/-- The log with other bytes behind the records of segment `s` and behind the entries of the index
file. -/
def torn (L : Log) (s : Nat) (z w : Bytes) : Log :=
  { L with
    segs := Function.update L.segs s ((L.segs s).map fun g => { g with tail := z })
    indexTail := w }

theorem segs_torn_self (hg : L.segs s = some g) :
    (L.torn s z w).segs s = some { g with tail := z } := by
  rw [torn, hg]
  exact Function.update_self ..

theorem segs_torn_ne {s' : Nat} (h : s' ≠ s) : (L.torn s z w).segs s' = L.segs s' :=
  Function.update_of_ne h ..

section torn

variable (hg : L.segs s = some g) (htail : g.tail = [])
include hg

/-- The records are where they were. -/
theorem located_torn (n : Nat) : (L.torn s z w).located n = L.located n := by
  refine located_congr fun s' _ => ?_
  by_cases he : s' = s
  · subst he
    rw [segLocated_some (segs_torn_self hg), segLocated_some hg]
  · exact segLocated_congr (segs_torn_ne he)

include htail

/-- No record is lost. -/
theorem Has.torn {t : Located} (h : L.Has t) : (L.torn s z w).Has t := by
  obtain ⟨g', hg', hpre⟩ := h
  by_cases he : t.seg = s
  · rw [he] at hg'
    obtain rfl : g = g' := Option.some.inj (hg.symm.trans hg')
    refine ⟨{ g with tail := z }, by rw [he, segs_torn_self hg], ?_⟩
    rw [Segment.bytes_torn htail, List.drop_append]
    exact hpre.trans (List.prefix_append ..)
  · exact ⟨g', (segs_torn_ne he).trans hg', hpre⟩

/-- The log is well formed. -/
theorem torn_ok (h : L.Ok count) : (L.torn s z w).Ok count :=
  { h with
    segs_lt := fun s' g' hg' => by
      by_cases he : s' = s
      · exact he ▸ h.segs_lt s g hg
      · exact h.segs_lt s' g' ((segs_torn_ne he).symm.trans hg')
    has := fun k t ht => (h.has k t ht).torn hg htail
    entries_le := by
      have hle := h.entries_le
      have hsize : L.size (spanOf count) ≤ (L.torn s z w).size (spanOf count) := by
        refine size_le (fun s' => ?_) _
        by_cases he : s' = s
        · subst he
          rw [segs_torn_self hg, hg, Option.elim_some, Option.elim_some,
            Segment.bytes_torn htail z, List.length_append]
          exact Nat.le_add_right ..
        · rw [segs_torn_ne he]
      change 25 * L.entries.length ≤ _
      omega }

end torn

/-- A scan stops at the torn frame. -/
theorem torn_scannable {cur : Nat} (h : L.Tidy count cur) (hg : L.segs s = some g)
    (hz : scanFrame z = none) (n : Nat) : (L.torn s z w).Scannable n where
  tail s' _ g' hg' := by
    by_cases he : s' = s
    · subst he
      obtain rfl := Option.some.inj ((segs_torn_self hg).symm.trans hg')
      exact hz
    · rw [h.tail s' g' ((segs_torn_ne he).symm.trans hg')]
      exact scanFrame_nil
  key s' _ g' hg' := by
    by_cases he : s' = s
    · subst he
      obtain rfl := Option.some.inj ((segs_torn_self hg).symm.trans hg')
      exact h.key s' g hg
    · exact h.key s' g' ((segs_torn_ne he).symm.trans hg')

end Log

section disk

variable {pre : Path} {count s : Nat} {fs fs' : FileSystem} {L : Log} {g : Segment} {z w : Bytes}

/-- The files with other bytes behind the records and the entries. -/
theorem Disk.torn (hd : Disk pre count fs L) (hg : L.segs s = some g) (htail : g.tail = [])
    (hf : Frame (Names pre fun a => a = .segment s ∨ a = .index) fs fs')
    (hseg : fs'.file (storePath pre (.segment s)) = some (g.bytes ++ z))
    (hindex : fs'.file (storePath pre .index) = some (entriesBytes L.entries ++ w)) :
    Disk pre count fs' (L.torn s z w) where
  names := hd.names
  lt := hd.lt
  ok := Log.torn_ok hg htail hd.ok
  segs s' hs' := by
    by_cases he : s' = s
    · subst he
      rw [hseg, Log.segs_torn_self hg, Option.map_some, Segment.bytes_torn htail z]
    · rw [Log.segs_torn_ne he, ← hd.segs s' hs']
      refine hf.file (hd.names.not_mem (.segment s') (Nat.lt_trans hs' (spanOf_lt hd.lt)) ?_)
      simpa using he
  index := hindex
  journal := hd.journal.frame hd.names hf (by simp) (by simp)

/-- A start that finds the index file answers from what it leads to. -/
theorem Disk.rebuilds {cfg : Config} (hd : Disk cfg.pre cfg.segmentCount.toNat fs L) (hcfg : cfg.Ok)
    (htail : readEntry L.indexTail = none) (h0 : ∀ k t, L.saved k = some t → t.record.hdr.ttl = 0) :
    cfg.Rebuilds fs L.reloaded.view := by
  refine fun order => wp_start hcfg order fun st hpre hsc hvalid hcool httl hmax hbuf hindex => ?_
  have hE : cfg.env.Fits st.basePrefix st.count := Config.fits_store hcfg hpre hsc
  have hcount : st.count = cfg.segmentCount.toNat := by rw [Store.count, hsc]
  refine wp_initFiles hE (hd.reshape hpre hcount) htail hvalid (.inr hcool) hbuf hindex
    (fun _ _ _ _ => trivial) fun st' fs' L' hop => ⟨L', hop.rebuilt ?_ httl hmax h0⟩
  exact hd.ok.entries

end disk

/-! ## The two writes

First the record, which the index file does not know of yet, then the entry. -/

section writes

variable {cfg : Config} {m m' : Contents} {st : Store} {fs : FileSystem} {L : Log} {g : Segment}
  {r : Record}

/-- The next start finds the one map or the other, with the index file and without it. -/
def Config.Atomic (cfg : Config) (m m' : Contents) (fs : FileSystem) : Prop :=
  ∀ fs', fs' = fs ∨ fs' = fs.unlink (storePath cfg.pre .index) →
    cfg.Rebuilds fs' m.lookup ∨ cfg.Rebuilds fs' m'.lookup

/-- The record makes the second map of the first. -/
structure Leads (m m' : Contents) (r : Record) : Prop where
  /-- The record has a key. -/
  key : r.key ≠ []
  /-- It has no TTL. -/
  ttl : ¬r.deletes → r.hdr.ttl = 0
  /-- The maps differ by it. -/
  lookup : ∀ k, Function.update m.lookup r.key (if r.deletes then none else some r.value) k = m'.lookup k

/-- A start without the index file finds the map of a tidy log, whose records are those of the segments. -/
theorem Files.rebuilds_tidy (hf : Files cfg.pre cfg.segmentCount.toNat fs L) (hcfg : cfg.Ok)
    (hsc : L.Scannable cfg.segmentCount.toNat) {L₀ : Log} {cur : Nat}
    (ht : L₀.Tidy cfg.segmentCount.toNat cur)
    (hloc : L.located cfg.segmentCount.toNat = L₀.located cfg.segmentCount.toNat)
    (hview : ∀ k, L₀.view k = m.lookup k) :
    cfg.Rebuilds (fs.unlink (storePath cfg.pre .index)) m.lookup := by
  have hscan := hf.unlink_index.rebuilds hcfg hsc FileSystem.dir_unlink_self
    (f := fun k => (L₀.live k).map Located.record) (fun k => by rw [hloc, ht.replay]) fun k x hx => by
      obtain ⟨t, hl, rfl⟩ := Option.map_eq_some_iff.1 hx
      exact (ht.record hl).2
  have hfun : (fun k => ((L₀.live k).map Located.record).map Record.value) = m.lookup := by
    funext k
    rw [← hview k, Option.map_map]
    rfl
  rwa [hfun] at hscan

/-- So does a start with it, unless something behind its entries reads as one. -/
theorem Disk.rebuilds_tidy (hd : Disk cfg.pre cfg.segmentCount.toNat fs L) (hcfg : cfg.Ok) {L₀ : Log}
    {cur : Nat} (ht : L₀.Tidy cfg.segmentCount.toNat cur) (hsaved : L.saved = L₀.saved)
    (htail : readEntry L.indexTail = none) (hview : ∀ k, L₀.view k = m.lookup k) :
    cfg.Rebuilds fs m.lookup := by
  have hreload := hd.rebuilds hcfg htail fun k t hl => by
    rw [hsaved, ht.saved] at hl
    exact (ht.record hl).2
  have hfun : L.reloaded.view = m.lookup := by
    funext k
    rw [← hview k, Log.view, Log.view, ← ht.saved, ← hsaved]
    rfl
  rwa [hfun] at hreload

/-- The segments with the record, whatever the index file. -/
theorem Files.append {pre : Path} {count s : Nat} {fs' : FileSystem} (hf : Files pre count fs L)
    (hg : L.segs s = some g) (hfr : Frame (Names pre fun a => a = .segment s ∨ a = .index) fs fs')
    (hseg : fs'.file (storePath pre (.segment s)) = some (g.bytes ++ r.bytes)) :
    Files pre count fs' (L.append s r) where
  names := hf.names
  lt := hf.lt
  segs_lt s' g' hg' := by
    by_cases he : s' = s
    · exact he ▸ hf.segs_lt s g hg
    · exact hf.segs_lt s' g' ((Log.segs_append_ne he).symm.trans hg')
  segs s' hs' := by
    by_cases he : s' = s
    · subst he
      rw [hseg, Log.segs_append_self hg, Option.map_some, Segment.bytes_append]
    · rw [Log.segs_append_ne he, ← hf.segs s' hs']
      refine hfr.file (hf.names.not_mem (.segment s') (Nat.lt_trans hs' (spanOf_lt hf.lt)) ?_)
      simpa using he
  journal := hf.journal.frame hf.names hfr (by simp) (by simp)

/-- What the record makes of the log, it makes of the map. -/
theorem Leads.append (hl : Leads m m' r) (h : Holds cfg m st fs L) (hact : Active st fs L g) :
    (L.append st.currentSegment r).Tidy st.count st.currentSegment ∧
      ∀ k, (L.append st.currentSegment r).view k = m'.lookup k := by
  have hcur := h.ready.rep.cur
  rw [spanOf_eq h.tidy.two_le] at hcur
  refine ⟨Log.append_tidy hact.segment h.tidy hcur hl.key hl.ttl, fun k => ?_⟩
  rw [Log.view_append, ← hl.lookup k, funext h.view]

/-- The active file holds the current segment. -/
theorem Active.data_eq (hact : Active st fs L g) (hr : Rep st fs L) {i : Nat}
    (hdir : fs.dir (st.segmentName st.currentSegment) = some i) : fs.data i = g.bytes := by
  obtain ⟨i', hi', hdata⟩ := hr.disk.dir_segment hact.segment
  obtain rfl : i = i' := Option.some.inj (hdir.symm.trans hi')
  exact hdata

/-- The segment while the entry is written. -/
theorem Holds.file_entry (h : Holds cfg m st fs L) (hact : Active st fs L g) {i j : Nat}
    (hdir : fs.dir (st.segmentName st.currentSegment) = some i) (hdirj : fs.dir st.indexName = some j)
    (r : Record) (ix : Bytes) : ((fs.setData i (fs.data i ++ r.bytes)).setData j ix).file
      (st.segmentName st.currentSegment) = some (g.bytes ++ r.bytes) := by
  have hd := h.ready.rep.disk
  have hcur256 : st.currentSegment < 256 := Nat.lt_trans h.ready.rep.cur (spanOf_lt hd.lt)
  have hne : i ≠ j := by
    rintro rfl
    exact hd.names.ne (a := .index) trivial (b := .segment st.currentSegment) hcur256 (by simp)
      (fs.inj hdirj hdir)
  have hdir' : ((fs.setData i (fs.data i ++ r.bytes)).setData j ix).dir
      (st.segmentName st.currentSegment) = some i := hdir
  rw [FileSystem.file_eq_some hdir', FileSystem.data_setData, if_neg hne, FileSystem.data_setData_self,
    hact.data_eq h.ready.rep hdir]

section torn

variable (h : Holds cfg m st fs L) (hcfg : cfg.Ok) (hl : Leads m m' r) (hact : Active st fs L g)
  {i : Nat} (hdir : fs.dir (st.segmentName st.currentSegment) = some i)
include h hcfg hl hact hdir

/-- **A part of the record** has reached the segment. -/
theorem Holds.torn_record {z : Bytes} (hz : z <+: r.bytes) :
    cfg.Atomic m m' (fs.setData i (fs.data i ++ z)) := by
  have hd := h.ready.rep.disk
  have hn := hd.names
  have hcur256 : st.currentSegment < 256 := Nat.lt_trans h.ready.rep.cur (spanOf_lt hd.lt)
  have htail := h.tidy.tail _ g hact.segment
  obtain ⟨ht', hview'⟩ := hl.append h hact
  have ht := h.tidy
  generalize hfs' : fs.setData i (fs.data i ++ z) = fs'
  have hf : Frame (Names st.basePrefix (· = .segment st.currentSegment)) fs fs' :=
    hfs' ▸ Frame.setData hdir (mem_names hcur256 rfl)
  have hf2 := hf.mono fun p hp => hp.mono (T := fun a => a = .segment st.currentSegment ∨ a = .index)
    (fun a ha => .inl ha) p
  have hseg : fs'.file (st.segmentName st.currentSegment) = some (g.bytes ++ z) := by
    have hdir' : fs'.dir (st.segmentName st.currentSegment) = some i := hfs' ▸ hdir
    rw [FileSystem.file_eq_some hdir', ← hfs', FileSystem.data_setData_self,
      hact.data_eq h.ready.rep hdir]
  have hindex : fs'.file st.indexName = some (entriesBytes L.entries ++ []) := by
    rw [hf.file (hn.not_mem .index trivial (by simp)), hd.index, h.ready.indexTail]
  have hd' := hd.torn hact.segment htail hf2 hseg hindex
  rw [h.pre, h.count_eq] at hd'
  rw [h.count_eq] at ht ht'
  rintro fs'' (rfl | rfl)
  · exact .inl (hd'.rebuilds_tidy hcfg ht rfl readEntry_nil h.view)
  by_cases hlt : z.length < r.size
  · have hsc := Log.torn_scannable (w := []) ht hact.segment (scanFrame_torn hz hlt)
    exact .inl (hd'.files.rebuilds_tidy hcfg (hsc _) ht (Log.located_torn hact.segment _) h.view)
  · obtain rfl : z = r.bytes := hz.eq_of_length_le (by rw [r.length_bytes]; omega)
    have hfiles := hd.files.append hact.segment hf2 hseg
    rw [h.pre, h.count_eq] at hfiles
    exact .inr (hfiles.rebuilds_tidy hcfg (ht'.scannable _) ht' rfl hview')

/-- **The record has reached the segment**, and a part of its entry the index file. -/
theorem Holds.torn_entry {j : Nat} (hdirj : fs.dir st.indexName = some j) {z : Bytes}
    (hz : z <+: (L.place st.currentSegment r).entry.bytes) (hlen : g.bytes.length < 2 ^ 24) :
    cfg.Atomic m m' ((fs.setData i (fs.data i ++ r.bytes)).setData j (fs.data j ++ z)) := by
  have hd := h.ready.rep.disk
  have hn := hd.names
  have hcur256 : st.currentSegment < 256 := Nat.lt_trans h.ready.rep.cur (spanOf_lt hd.lt)
  have htail := h.tidy.tail _ g hact.segment
  obtain ⟨ht', hview'⟩ := hl.append h hact
  have ht := h.tidy
  have hdata : fs.data j = entriesBytes L.entries := by
    have hindex := hd.index
    rw [FileSystem.file_eq_some hdirj, h.ready.indexTail, List.append_nil] at hindex
    exact Option.some.inj hindex
  have hseg := h.file_entry hact hdir hdirj r (fs.data j ++ z)
  generalize hfs' : (fs.setData i (fs.data i ++ r.bytes)).setData j (fs.data j ++ z) = fs' at hseg ⊢
  have hf : Frame (Names st.basePrefix fun a => a = .segment st.currentSegment ∨ a = .index) fs fs' := by
    rw [← hfs']
    exact (Frame.setData hdir (mem_names hcur256 (.inl rfl))).trans
      (Frame.setData hdirj (mem_names (by exact trivial) (.inr rfl)))
  have hindex : fs'.file st.indexName = some (entriesBytes L.entries ++ z) := by
    have hdir' : fs'.dir st.indexName = some j := hfs' ▸ hdirj
    rw [FileSystem.file_eq_some hdir', ← hfs', FileSystem.data_setData_self, hdata]
  have hfiles := hd.files.append hact.segment hf hseg
  rw [h.pre, h.count_eq] at hfiles
  rintro fs'' (rfl | rfl)
  swap
  · rw [h.count_eq] at ht'
    exact .inr (hfiles.rebuilds_tidy hcfg (ht'.scannable _) ht' rfl hview')
  by_cases hlt : z.length < (L.place st.currentSegment r).entry.size
  · have hd' := hd.torn hact.segment htail hf hseg hindex
    rw [h.pre, h.count_eq] at hd'
    rw [h.count_eq] at ht
    exact .inl (hd'.rebuilds_tidy hcfg ht rfl (readEntry_torn hz hlt) h.view)
  · obtain rfl : z = (L.place st.currentSegment r).entry.bytes :=
      hz.eq_of_length_le (by rw [IndexEntry.length_bytes]; omega)
    have hok := @Log.append_ok L _ _ g r hact.segment h.ready.rep.cur hd.ok hd.lt hlen
    have hd' := hd.append hact.segment hok hf hseg hindex
    rw [h.pre, h.count_eq] at hd'
    rw [h.count_eq] at ht'
    exact .inr (hd'.rebuilds_tidy hcfg ht' rfl readEntry_nil hview')

end torn

end writes

/-! ## Every write of an operation

The demands at the writes (`Env.AtRecord`, `Env.AtEntry`) are filled in here. -/

section operation

variable {cfg : Config} {m m' : Contents} {st : Store} {fs : FileSystem} {L : Log} {r : Record}

/-- Whatever part of a write to a log gets through, the map is the one or the other. -/
def Config.tornEnv (cfg : Config) (m m' : Contents) : Env :=
  ⟨fun _ _ => False, cfg.Small, fun c fs => cfg.Small fs → fs.dir (storePath cfg.pre .journal) = none →
    ∀ f bs, c = .write f bs → f.mode.appends = true → ∀ z, z <+: bs →
      cfg.Atomic m m' (fs.setData f.ino (fs.data f.ino ++ z))⟩

/-- The circumstances are those the operations need. -/
theorem Config.tornEnv_fits (hcfg : cfg.Ok) (hpre : st.basePrefix = cfg.pre)
    (hcount : st.segmentCount = cfg.segmentCount) :
    (cfg.tornEnv m m').Fits st.basePrefix st.count where
  pos := .inr fun _ _ => id
  small := (Config.fits_store hcfg hpre hcount).small
  quiet c fs h := by
    rintro - hj f bs rfl hm
    rw [← hpre] at hj
    exact absurd hj (h (fun _ _ => id) hm)
  mild _ _ h := h.elim

/-- A part of a write is a beginning of what is to be written. -/
theorem prefix_append_of {x z bs y : Bytes} (hz : z <+: bs) (h : x ++ bs <+: y) : x ++ z <+: y :=
  ((List.prefix_append_right_inj x).2 hz).trans h

/-- At the writes of the record. -/
theorem Holds.atRecord (h : Holds cfg m st fs L) (hcfg : cfg.Ok) (hl : Leads m m' r) :
    (cfg.tornEnv m m').AtRecord st L r := by
  rintro st₁ fs₁ L₁ g f x bs hr hc hact hdir hm hx - - _ _ ⟨⟩ - z hz
  rw [FileSystem.data_setData_self, FileSystem.setData_setData, List.append_assoc]
  exact (h.of_carries hr hc).torn_record hcfg hl hact hdir (prefix_append_of hz hx)

/-- At the writes of its entry. -/
theorem Holds.atEntry (h : Holds cfg m st fs L) (hcfg : cfg.Ok) (hl : Leads m m' r) :
    (cfg.tornEnv m m').AtEntry st L r := by
  rintro st₁ fs₁ L₁ g i f x bs hr hc hact hdir hdirj hm hx hsmall - _ _ ⟨⟩ - z hz
  have h₁ := h.of_carries hr hc
  have hlen : g.bytes.length < 2 ^ 24 := by
    have hcur := hr.rep.cur
    have hseg := h₁.file_entry hact hdir hdirj r (fs₁.data f.ino ++ x)
    rw [spanOf_eq h₁.tidy.two_le, h₁.count_eq] at hcur
    rw [Store.segmentName, h₁.pre] at hseg
    have hlen := hsmall _ hcur _ hseg
    rw [List.length_append] at hlen
    omega
  rw [FileSystem.data_setData_self, FileSystem.setData_setData, List.append_assoc]
  exact h₁.torn_entry hcfg hl hact hdir hdirj (prefix_append_of hz hx) hlen

/-- A put leads to the map with its value. -/
theorem leads_put {key data : Buf} {ts : UInt32} {priority : UInt8} (hne : key.bytes ≠ [])
    (hkey : key.bytes.length ≤ maxKeyLen) (hdata : data.bytes.length ≤ maxValueLen) :
    Leads m (m.insert key.bytes data.bytes) (putRecord key data 0 ts priority hkey hdata) where
  key := hne
  ttl _ := rfl
  lookup k := by
    have hdel : ¬(putRecord key data 0 ts priority hkey hdata).deletes := by
      change ¬(0 : UInt8) &&& flagDelete ≠ 0
      decide
    rw [if_neg hdel]
    by_cases hk : k = key.bytes
    · subst hk
      exact (Function.update_self ..).trans (Finmap.lookup_insert m).symm
    · exact (Function.update_of_ne hk ..).trans (Finmap.lookup_insert_of_ne m hk).symm

/-- A remove leads to the map without its key. -/
theorem leads_remove {key : Buf} {junkTtl : UInt32} {junkPriority : UInt8} (hne : key.bytes ≠ [])
    (hkey : key.bytes.length ≤ maxKeyLen) :
    Leads m (m.erase key.bytes) (removeRecord key junkTtl junkPriority hkey) := by
  have hdel : (removeRecord key junkTtl junkPriority hkey).deletes := by
    change flagDelete &&& flagDelete ≠ 0
    decide
  refine ⟨hne, fun hd => absurd hdel hd, fun k => ?_⟩
  rw [if_pos hdel]
  by_cases hk : k = key.bytes
  · subst hk
    exact (Function.update_self ..).trans (Finmap.lookup_erase _ m).symm
  · exact (Function.update_of_ne hk ..).trans (Finmap.lookup_erase_ne hk).symm

/-- The operations that append a record. -/
def Command.Appends : Command → Prop
  | .put .. | .remove .. => True
  | .get .. | .exists .. | .clear | .size | .iterate | .restart _ => False

/-- **Every write of a put or remove**, whatever part of it gets through. -/
theorem Holds.wp_torn (h : Holds cfg m st fs L) (hcfg : cfg.Ok) {c : Command} (hc : c.WithinLimits)
    (ha : c.Appends) :
    (cfg.tornEnv m (c.next m)).wp (cfg.perform st c) (fun _ _ => True) fs := by
  have hE : (cfg.tornEnv m (c.next m)).Fits st.basePrefix st.count :=
    cfg.tornEnv_fits hcfg h.pre h.segmentCount
  cases c with
  | put clk key data ts priority =>
    obtain ⟨hne, hkey, hdata⟩ := hc
    have hl : Leads m (m.insert key.bytes data.bytes) (putRecord key data 0 ts priority hkey hdata) :=
      leads_put hne hkey hdata
    have hrotate : Env.wp (cfg.tornEnv m (m.insert key.bytes data.bytes))
        (st.rotateSegmentIfNeeded clk data.bytes.length)
        (fun x fs' => ∃ L', Ready x.2 fs' L' ∧ Carries st L x.2 L' ∧ True) fs := by
      refine Prog.wp_mono (wp_rotate_ready hE h.ready) fun x fs' hx => ?_
      obtain ⟨L', hr, hcarry, -⟩ := hx
      exact ⟨L', hr, hcarry, trivial⟩
    rw [Config.perform]
    exact Prog.wp_bind.2 (Store.wp_put (R := fun _ _ _ => True) hE h.ready.rep.valid hkey hdata rfl
      hrotate (h.atRecord hcfg hl) (h.atEntry hcfg hl)
      fun _ _ _ _ _ _ _ _ _ _ _ _ => Env.wp_ret trivial)
  | remove clk key junkTtl junkPriority =>
    obtain ⟨hne, hkey⟩ := hc
    have hl : Leads m (m.erase key.bytes) (removeRecord key junkTtl junkPriority hkey) :=
      leads_remove hne hkey
    rw [Config.perform]
    exact Prog.wp_bind.2 (Store.wp_remove hE h.ready hkey rfl (h.atRecord hcfg hl)
      (h.atEntry hcfg hl) fun _ _ _ _ _ _ => Env.wp_ret trivial)
  | _ => exact ha.elim

end operation

/-- **A put or remove is atomic.**  When the power goes in the middle of one of its writes to a segment or
to the index file, outside a compaction, then the next `init` finds either the map as it was or the map
with the operation, whatever part of the write has reached the disk, and also when the index file is lost
with it. -/
theorem append_atomic {cfg : Config} (hcfg : cfg.Ok) (order : IterationOrder)
    (commands : List Command) (hc : ∀ c ∈ commands, c.WithinLimits) (fs : FileSystem)
    (hfresh : cfg.Fresh fs)
    (hsmall : ∀ x ∈ Prog.trace posix (cfg.session order commands) fs, cfg.Small x.2) (as : List Answer)
    (st : Store) (fs₁ : FileSystem)
    (hend : Prog.exec posix (cfg.session order commands) fs = ((as, st), fs₁)) (c : Command)
    (hcl : c.WithinLimits) (ha : c.Appends)
    (hsmall₁ : ∀ x ∈ Prog.trace posix (cfg.perform st c) fs₁, cfg.Small x.2) (f : Handle) (bs : Bytes)
    (fs₂ : FileSystem) (hx : (Call.write f bs, fs₂) ∈ Prog.trace posix (cfg.perform st c) fs₁)
    (hlog : f.mode.appends = true) (hj : fs₂.dir (storePath cfg.pre .journal) = none) (z : Bytes)
    (hz : z <+: bs) (fs₃ : FileSystem)
    (hfs₃ : fs₃ = fs₂.setData f.ino (fs₂.data f.ino ++ z) ∨
      fs₃ = (fs₂.setData f.ino (fs₂.data f.ino ++ z)).unlink (storePath cfg.pre .index)) :
    ∃ m', (m' = Contents.after ∅ commands ∨ m' = Contents.after ∅ (commands ++ [c])) ∧
      ∀ order', (∀ x ∈ Prog.trace posix (cfg.start order') fs₃, cfg.Small x.2) → ∀ clk key,
        cfg.getAfter order' fs₃ clk key = m'.lookup key.bytes := by
  obtain ⟨-, L, hL⟩ := session_reaches hcfg order hc hfresh hsmall
  rw [hend] at hL
  have htorn := Env.trace_of_wp (hL.wp_torn hcfg hcl ha) hsmall₁ _ hx (hsmall₁ _ hx) hj f bs rfl hlog z hz
  rcases htorn fs₃ hfs₃ with hm | hm
  · exact ⟨_, .inl rfl, fun _ hs clk key => hm.getAfter hs clk key⟩
  · refine ⟨_, .inr ?_, fun _ hs clk key => hm.getAfter hs clk key⟩
    rw [Contents.after, Contents.after, List.foldl_append]
    rfl

/-- Two keys in one segment. -/
def twoStored : (List Answer × Store) × FileSystem :=
  Prog.exec posix (sampleConfig.session .recent twoPuts) .empty

/-- A put over one of them. -/
def samplePut : Command := .put ⟨0, 0, 0⟩ (.at [98]) (.at [3]) 0 0

theorem sampleWrite_lt :
    0 < (Prog.trace posix (sampleConfig.perform twoStored.1.2 samplePut) twoStored.2).length := by
  decide +kernel

/-- Its first write. -/
def sampleWrite : Call × FileSystem :=
  (Prog.trace posix (sampleConfig.perform twoStored.1.2 samplePut) twoStored.2).get ⟨0, sampleWrite_lt⟩

/-- Ten bytes of the record have got through. -/
def sampleTear : FileSystem :=
  sampleWrite.2.setData 1 (sampleWrite.2.data 1 ++ [222, 192, 222, 192, 0, 1, 1, 0, 0, 0])

theorem append_atomic_sample :
    sampleConfig.getAfter .recent sampleTear ⟨0, 0, 0⟩ (.at [97]) = some [1] ∧
      sampleConfig.getAfter .recent sampleTear ⟨0, 0, 0⟩ (.at [98]) = some [2] := by
  have hcall : sampleWrite.1 = .write ⟨1, 54, .readAppend⟩ [222, 192, 222, 192, 0, 1, 1, 0, 0, 0, 0, 0,
      0, 0, 0, 0, 0, 255, 242, 175, 211, 98, 3, 12, 176, 206, 250] := by
    decide +kernel
  have hmem := List.get_mem _ (⟨0, sampleWrite_lt⟩ : Fin (Prog.trace posix
    (sampleConfig.perform twoStored.1.2 samplePut) twoStored.2).length)
  change (sampleWrite.1, sampleWrite.2) ∈ _ at hmem
  rw [hcall] at hmem
  obtain ⟨m', hm, hget⟩ := append_atomic sampleConfig_ok .recent twoPuts
    (by simp [twoPuts, Command.WithinLimits, Buf.bytes, maxKeyLen, maxValueLen]) .empty
    (fun _ _ => rfl) (by decide +kernel) twoStored.1.1 twoStored.1.2 twoStored.2 rfl samplePut
    (by simp [samplePut, Command.WithinLimits, Buf.bytes, maxKeyLen, maxValueLen]) trivial
    (by decide +kernel) _ _ sampleWrite.2 hmem rfl (by decide +kernel)
    [222, 192, 222, 192, 0, 1, 1, 0, 0, 0] ⟨_, rfl⟩ sampleTear (.inl rfl)
  -- the one map both answers come from
  have hkeys := hget .recent (by decide +kernel) ⟨0, 0, 0⟩
  have hold : m' = Contents.after ∅ twoPuts := by
    refine hm.resolve_right fun hnew => ?_
    have h98 := hkeys (.at [98])
    rw [hnew] at h98
    revert h98
    decide +kernel
  rw [hkeys, hkeys, hold]
  decide +kernel

end MicroStore
