import MicroStore.Compacting
import MicroStore.Ranking

/-!
# The commit of a compaction

`finalize_compaction` makes `compact.tmp` segment 0 and builds the index anew.  With it `compact` takes
a store to one with the same keys and values in a single segment, and `recover_if_needed` the files of a
committed compaction to the same.

## What is here

* `Log.compacted` — the log of a store after a compaction: one segment, which holds what was copied, and
  an index that is what a scan of it leads to.
* `Moved` — the files once `compact.tmp` has become segment 0.  Both the compaction and the recovery
  from its journal come through this state, so what follows it is proved once.
* `wp_finalizeCompaction` — the commit, and `wp_finalizeCompaction_missing` for a recovery that finds no
  `compact.tmp`.
* `mem_image`, `image_put`, `scanned_image` — what a compaction copies: each live record that has not
  expired, once, and a scan of the copies leads to exactly these.
* `wp_compact` — the whole compaction, at every call of which `Midway` or `AfterCommit` holds.

## The order of the steps

The commit journal is written first; then the segments are removed, then `compact.tmp` is renamed, then
the index file is rewritten and last the journal is removed.  The removal comes before the rename, so a
recovery that runs these steps again removes the renamed segment as well.
-/

set_option autoImplicit false

namespace MicroStore

/-- Is it one of the first `c` segments? -/
def StoreFile.below (c : Nat) : StoreFile → Prop
  | .segment s => s < c
  | .index | .journal | .tmp => False

/-- The log a compaction leaves: the copied records in segment 0, what a scan of it finds, and the
index file for that.  Segments that should not be there stay. -/
def Log.compacted (L : Log) (count : Nat) (rs : List Record) (es : List IndexEntry) : Log where
  segs s := if s = 0 then some ⟨rs, []⟩ else if s < count then none else L.segs s
  live := scanned rs
  saved := scanned rs
  entries := es
  indexTail := []

namespace Log

variable {L : Log} {rs : List Record} {es : List IndexEntry} {count : Nat}

/-- The log after a compaction is sound. -/
theorem compacted_ok (h : L.Ok count) (hlen : (recordsBytes rs).length < 2 ^ 24)
    (hes : Index.Shows (es.foldl (fun idx e => e.apply idx) ∅) (scanned rs))
    (hle : es.length ≤ rs.length) : (L.compacted count rs es).Ok count where
  segs_lt s g hs := by
    by_cases h0 : s = 0
    · rw [h0]
      exact Nat.lt_of_lt_of_le Nat.zero_lt_two (two_le_spanOf count)
    · have hs : (if s = 0 then some ⟨rs, []⟩ else if s < count then none else L.segs s) = some g := hs
      rw [if_neg h0] at hs
      split at hs
      · cases hs
      · exact h.segs_lt s g hs
  sub k t ht := ht
  has k t ht := by
    obtain ⟨hmem, -⟩ := scanned_eq_some ht
    refine ⟨⟨rs, []⟩, ?_, prefix_of_mem_locate [] hmem⟩
    rw [(mem_locate hmem).1]
    rfl
  key k t ht := (scanned_eq_some ht).2.1
  put k t ht := (scanned_eq_some ht).2.2.2
  off k t ht := by
    obtain ⟨-, before, after, hrs, ho⟩ := mem_locate (scanned_eq_some ht).1
    rw [hrs, recordsBytes_append, List.length_append] at hlen
    omega
  entries := hes
  entries_le := by
    have hrs := length_le_recordsBytes rs
    change 25 * es.length ≤ _
    omega

/-- Where there are no segments behind the count, only segment 0 is there after a compaction. -/
theorem segs_compacted (hlt : ∀ s g, L.segs s = some g → s < count) {s : Nat} {g : Segment}
    (h : (L.compacted count rs es).segs s = some g) : s = 0 ∧ g = ⟨rs, []⟩ := by
  by_cases h0 : s = 0
  · rw [h0] at h
    exact ⟨h0, (Option.some.inj h).symm⟩
  have h : (if s = 0 then some ⟨rs, []⟩ else if s < count then none else L.segs s) = some g := h
  rw [if_neg h0] at h
  split at h
  · cases h
  · next hs => exact absurd (hlt s g h) hs

/-- A scan of the compacted segment finds its records. -/
theorem replay_compacted (htwo : 2 ≤ count) (hlt : ∀ s g, L.segs s = some g → s < count)
    (hkey : ∀ r ∈ rs, r.key ≠ []) :
    MicroStore.replay ((L.compacted count rs es).located count) (fun _ => none) = scanned rs := by
  have habove : ∀ s, 0 < s → (L.compacted count rs es).segs s = none := fun s hs =>
    Option.eq_none_iff_forall_ne_some.2 fun g hg => Nat.ne_of_gt hs (segs_compacted hlt hg).1
  rw [located_eq habove (Nat.zero_lt_of_lt htwo), located, located, List.nil_append]
  exact (scanned_eq hkey).symm

/-- Without empty keys, a scan of the compacted segment finds all there is. -/
theorem compacted_ordered {cur : Nat} (htwo : 2 ≤ count) (hlt : ∀ s g, L.segs s = some g → s < count)
    (hkey : ∀ r ∈ rs, r.key ≠ []) : (L.compacted count rs es).Ordered count cur where
  two_le := htwo
  above s hs := Option.eq_none_iff_forall_ne_some.2 fun g hg =>
    Nat.ne_of_gt (Nat.zero_lt_of_lt hs) (segs_compacted hlt hg).1
  tail s g hg := by rw [(segs_compacted hlt hg).2]
  key s g hg := by
    rw [(segs_compacted hlt hg).2]
    exact hkey
  scan k t ht := by
    rw [replay_compacted htwo hlt hkey]
    exact ht

/-- Without TTLs either, the log is tidy again. -/
theorem compacted_tidy {cur : Nat} (htwo : 2 ≤ count) (hlt : ∀ s g, L.segs s = some g → s < count)
    (hkey : ∀ r ∈ rs, r.key ≠ []) (httl : ∀ r ∈ rs, r.hdr.ttl = 0) :
    (L.compacted count rs es).Tidy count cur where
  toOrdered := compacted_ordered htwo hlt hkey
  ttl s g hg := by
    rw [(segs_compacted hlt hg).2]
    exact fun r hr _ => httl r hr
  saved := rfl
  replay := (replay_compacted htwo hlt hkey).symm

/-- The index may lose entries. -/
def narrow (L : Log) (m : Live) : Log := { L with live := m }

/-- Dropping keys from the index in memory keeps a log sound. -/
theorem narrow_ok {m : Live} (h : L.Ok count) (hm : ∀ k t, m k = some t → L.live k = some t) :
    (L.narrow m).Ok count :=
  { h with
    sub := fun k t ht => h.sub k t (hm k t ht)
    entries_le := by
      have hsize (n : Nat) : (L.narrow m).size n = L.size n := by
        induction n with
        | zero => rfl
        | succ n ih => rw [size, size, ih]; rfl
      rw [hsize]
      exact h.entries_le }

/-- The records of a log depend on its segments alone. -/
theorem located_congr {L L' : Log} {n : Nat} (h : ∀ s < n, L.segLocated s = L'.segLocated s) :
    L.located n = L'.located n := by
  induction n with
  | zero => rfl
  | succ n ih =>
    rw [located, located, ih fun s hs => h s (Nat.lt_succ_of_lt hs), h n (Nat.lt_succ_self n)]

end Log

/-- The files once `compact.tmp` has become segment 0. -/
structure Moved (st : Store) (rs : List Record) (fs fs' : FileSystem) : Prop where
  /-- The journal is still there. -/
  frame : Frame (Names st.basePrefix (· ≠ .journal)) fs fs'
  /-- `compact.tmp` is not. -/
  tmp : fs'.dir st.tmpName = none
  /-- Segment 0 holds the records. -/
  first : fs'.file (st.segmentName 0) = some (recordsBytes rs)
  /-- The other segments of the store are gone. -/
  gone : ∀ s, 0 < s → s < st.count → fs'.dir (st.segmentName s) = none
  /-- Segments beyond the count, which there are when the count is 1, stay. -/
  rest : ∀ s, 0 < s → st.count ≤ s → s < 256 →
    fs'.file (st.segmentName s) = fs.file (st.segmentName s)

/-- Rewriting the index file changes nothing of it. -/
theorem Moved.index {st : Store} {rs : List Record} {fs fs' fs'' : FileSystem}
    (h : Moved st rs fs fs') (hn : NamesOk st.basePrefix) (hlt : st.count < 256)
    (hf : Frame (Names st.basePrefix (· = .index)) fs' fs'') : Moved st rs fs fs'' where
  frame := h.frame.trans (hf.mono fun p hp => hp.mono (fun a ha => by rw [ha]; simp) p)
  tmp := (hf.dir (hn.not_mem .tmp trivial (by simp))).trans h.tmp
  first := (hf.file (hn.not_mem (.segment 0) (Nat.zero_lt_succ _) (by simp))).trans h.first
  gone s hs hs' :=
    (hf.dir (hn.not_mem (.segment s) (Nat.lt_trans hs' hlt) (by simp))).trans (h.gone s hs hs')
  rest s hs hs' hs256 :=
    (hf.file (hn.not_mem (.segment s) hs256 (by simp))).trans (h.rest s hs hs' hs256)

/-- An entry of the index stands for a live key. -/
theorem Index.Shows.key_mem {idx : Index} {m : Live} (h : idx.Shows m) {it : IndexItem}
    (hit : it ∈ idx.entries) : ∃ t, m it.1 = some t ∧ t.indexValue = it.2 := by
  have hl : idx.lookup it.1 = some it.2 := AList.mem_lookup_iff.2 hit
  rw [h it.1] at hl
  exact Option.map_eq_some_iff.1 hl

/-- The entries of a bulk rewrite lead to the records the index shows. -/
theorem Index.Shows.bulkEntries_leads {items : List IndexItem} {idx : Index} {m : Live}
    (hs : idx.Shows m) (hperm : items.Perm idx.entries)
    (hkey : ∀ k t, m k = some t → t.record.key = k) (h : ∀ it ∈ items, it.1.length ≤ maxKeyLen)
    {e : IndexEntry} (he : e ∈ bulkEntries items h) : ∃ t, m e.key = some t ∧ e.Leads t := by
  obtain ⟨it, hit, rfl⟩ := List.mem_pmap.1 he
  obtain ⟨t, ht, hv⟩ := hs.key_mem (hperm.mem_iff.1 hit)
  exact ⟨t, ht, (hkey _ t ht).symm, (itemEntry_value _).trans hv.symm⟩

/-- Replaying the bulk entries inserts what was written. -/
theorem foldl_bulkEntries {items : List IndexItem} (h : ∀ it ∈ items, it.1.length ≤ maxKeyLen)
    (idx : Index) : (bulkEntries items h).foldl (fun i e => e.apply i) idx
      = items.foldl (fun i it => i.insert it.1 it.2) idx := by
  induction items generalizing idx with
  | nil => rfl
  | cons it items ih =>
    rw [bulkEntries, List.pmap_cons, List.foldl_cons, List.foldl_cons, itemEntry_apply]
    exact ih _ _

/-- An index that shows a replay has no more keys than there are records. -/
theorem Index.Shows.length_le {idx : Index} {l : List Located}
    (h : idx.Shows (replay l fun _ => none)) : idx.entries.length ≤ l.length := by
  have hsub : idx.keys ⊆ l.map fun t => t.record.key := by
    intro k hk
    obtain ⟨v, hv⟩ := Option.isSome_iff_exists.1 (AList.lookup_isSome.2 (AList.mem_keys.1 hk))
    rw [h k] at hv
    obtain ⟨t, ht, -⟩ := Option.map_eq_some_iff.1 hv
    obtain ⟨hmem, hkey, -⟩ := (replay_eq_some ht).resolve_left (by simp)
    exact List.mem_map.2 ⟨t, hmem, hkey⟩
  have hle := (List.subperm_of_subset idx.keys_nodup hsub).length_le
  rw [List.length_map] at hle
  simpa [AList.keys, List.keys] using hle

section finalize

variable {E : Env} {st : Store} {fs : FileSystem}

/-- The loop that removes all segments. -/
theorem wp_removeSegments {c n i : Nat} (hc : i + n = c) (hle : c ≤ 256)
    (hok : ∀ s fs', Frame (Names st.basePrefix (StoreFile.below c)) fs fs' →
      E.Ok (.remove (st.segmentName s)) fs') {Q : Unit → FileSystem → Prop}
    (hQ : ∀ fs', Frame (Names st.basePrefix (StoreFile.below c)) fs fs' →
      (∀ p, fs.dir p = none → fs'.dir p = none) →
      (∀ s, i ≤ s → s < c → fs'.dir (st.segmentName s) = none) → Q () fs') :
    E.wp (st.removeSegments n i) Q fs := by
  induction n generalizing i fs with
  | zero =>
    exact Env.wp_ret (hQ fs (Frame.refl _ _) (fun _ h => h) fun s h1 h2 => by omega)
  | succ n ih =>
    rw [Store.removeSegments]
    refine Env.wp_call (hok i fs (Frame.refl _ _)).1 (hok i fs (Frame.refl _ _)).2 fun _ => ?_
    have hf : Frame (Names st.basePrefix (StoreFile.below c)) fs (fs.unlink (st.segmentName i)) :=
      Frame.unlink ⟨.segment i, by change i < 256; omega, by change i < c; omega, rfl⟩
    refine ih (by omega) (fun s fs' hf' => hok s fs' (hf.trans hf'))
      fun fs' hf' habs hgone => ?_
    refine hQ fs' (hf.trans hf') (fun p hp => habs p ?_) fun s h1 h2 => ?_
    · change (fs.unlink (st.segmentName i)).dir p = none
      rw [FileSystem.dir_unlink]
      split
      · rfl
      · exact hp
    · rcases Nat.eq_or_lt_of_le h1 with rfl | h1
      · exact habs _ FileSystem.dir_unlink_self
      · exact hgone s h1 h2

/-- Closing a file does nothing to it. -/
theorem wp_closeFile (hE : E.Reads fs) {f : File} {β : Type} {k : Unit → FsM β}
    {Q : β → FileSystem → Prop} (h : E.wp (k ()) Q fs) : E.wp (closeFile f >>= k) Q fs := by
  cases f with
  | none => exact Env.wp_pure_bind h
  | some f => exact wp_close hE h

/-- The end of `finalize_compaction`: the index file is written anew, and opened. -/
def Store.rewriteIndex (st : Store) : FsM Store := do
  closeFile st.indexFile
  let _ ← removeFile st.indexName
  let _ ← st.writeIndexBulk
  let st ← st.openIndexForAppend
  pure { st with currentSegment := 0 }

/-- It changes nothing else. -/
theorem always_rewriteIndex (st : Store) : st.rewriteIndex.always fun st' =>
    ∃ file, st' = { st with indexFile := file, currentSegment := 0 } := by
  rw [Store.rewriteIndex, Store.openIndexForAppend]
  refine Prog.always_skip fun _ => Prog.always_skip fun _ => Prog.always_skip fun _ => ?_
  exact Prog.always_bind.2 (Prog.always_skip fun file => ⟨file, rfl⟩)

/-- Without a `compact.tmp`, only the segments go. -/
theorem wp_finalizeCompaction_missing (hlt : st.count < 256) (htmp : fs.dir st.tmpName = none)
    (hremove : ∀ p fs', E.Ok (.remove p) fs') (hrename : ∀ p q fs', E.Ok (.rename p q) fs')
    {Q : Store → FileSystem → Prop}
    (hQ : ∀ fs', Frame (Names st.basePrefix (StoreFile.below st.count)) fs fs' →
      (∀ p, fs.dir p = none → fs'.dir p = none) → Q st (fs'.unlink st.tmpName)) :
    E.wp st.finalizeCompaction Q fs := by
  rw [Store.finalizeCompaction]
  refine Prog.wp_bind.2 (wp_removeSegments (Nat.zero_add _) (Nat.le_of_lt hlt)
    (fun s fs' _ => hremove _ fs') fun fs1 hf1 habs _ => ?_)
  refine wp_rename_missing (habs _ htmp) (hrename _ _ fs1) ?_
  rw [if_pos (by rfl)]
  exact Env.wp_call (hremove _ fs1).1 (hremove _ fs1).2 fun _ => Env.wp_ret (hQ fs1 hf1 habs)

/-- **The commit.**  With a complete copy in `compact.tmp`, `finalize_compaction` leaves the copied
records in segment 0, an index that shows them and an index file that leads to it. -/
theorem wp_finalizeCompaction (hn : NamesOk st.basePrefix)
    (hlt : st.count < 256) (hmild : ∀ c fs, E.allowed fs c → Scratch st.basePrefix fs c)
    {rs : List Record} (htmp : fs.file st.tmpName = some (recordsBytes rs))
    (hput : ∀ r ∈ rs, ¬r.deletes)
    (hsmall : ∀ fs', fs'.file (st.segmentName 0) = some (recordsBytes rs) → E.rely fs' →
      (recordsBytes rs).length < 2 ^ 24)
    (hinvA : ∀ c fs', ¬c.logs → Frame (Names st.basePrefix (StoreFile.below st.count)) fs fs' →
      E.inv c fs')
    (hinvB : ∀ c fs', Moved st rs fs fs' → E.inv c fs') {Q : Store → FileSystem → Prop}
    (hQ : ∀ idx i es fs', Moved st rs fs fs' → idx.Shows (scanned rs) →
      fs'.file st.indexName = some (entriesBytes es) → fs'.dir st.indexName = some i →
      Index.Shows (es.foldl (fun idx e => e.apply idx) ∅) (scanned rs) →
      es.length ≤ rs.length → (∀ e ∈ es, ∃ t, scanned rs e.key = some t ∧ e.Leads t) →
      (recordsBytes rs).length < 2 ^ 24 → Q { st with index := idx, indexFile := some ⟨i, 0, .append⟩, currentSegment := 0 } fs') :
    E.wp st.finalizeCompaction Q fs := by
  have hreads (fs' : FileSystem) (hm : Moved st rs fs fs') : E.Reads fs' :=
    Env.reads_of (fun c _ => hinvB c fs' hm) hmild
  have hzero : (0 : Nat) < 256 := by decide
  rw [Store.finalizeCompaction]
  refine Prog.wp_bind.2 (wp_removeSegments (Nat.zero_add _) (Nat.le_of_lt hlt)
    (fun s fs' hf => ⟨hinvA _ fs' id hf, hmild _ _⟩) fun fs1 hf1 _ hgone => ?_)
  obtain ⟨i, hi, hdata⟩ := Option.map_eq_some_iff.1 htmp
  have htmp1 := hn.not_mem (S := (StoreFile.below st.count)) .tmp trivial id
  have hi1 : fs1.dir st.tmpName = some i := (hf1.dir htmp1).trans hi
  refine wp_rename (a := .tmp) (b := .segment 0) trivial hzero
    (hn.ne trivial hzero (by simp)) hi1 ⟨hinvA _ _ id hf1, hmild _ _⟩
    fun fs2 hf2 htmp2 hfirst2 hdata2 => ?_
  have hfile2 : fs2.file (st.segmentName 0) = some (recordsBytes rs) := by
    rw [FileSystem.file_eq_some hfirst2, hdata2, hf1.data htmp1 hi, hdata]
  have hm2 : Moved st rs fs fs2 :=
    { frame := (hf1.mono fun p hp => hp.mono (fun a ha => by rintro rfl; exact ha) p).trans
        (hf2.mono fun p hp => hp.mono (fun a ha => by rintro rfl; simp at ha) p)
      tmp := htmp2
      first := hfile2
      gone := fun s hs hs' => by
        have hs256 := Nat.lt_trans hs' hlt
        refine (hf2.dir (hn.not_mem (.segment s) hs256 ?_)).trans
          (hgone s (Nat.zero_le s) hs')
        simp
        omega
      rest := fun s hs hs' hs256 => by
        refine (hf2.file (hn.not_mem (.segment s) hs256 ?_)).trans
          (hf1.file (hn.not_mem (.segment s) hs256 (Nat.not_lt.2 hs')))
        simp
        omega }
  dsimp only
  rw [if_neg (by decide)]
  refine wp_openRead (hreads fs2 hm2) (fun hnone => ?_) fun j hj hrely => ?_
  · cases hfirst2.symm.trans hnone
  obtain rfl : i = j := Option.some.inj (hfirst2.symm.trans hj)
  have hlen := hsmall fs2 hfile2 hrely
  have hcontent : fs2.data i = recordsBytes rs := by
    rw [hdata2, hf1.data htmp1 hi, hdata]
  refine Prog.wp_bind.2 (wp_scanLoop (hreads fs2 hm2) loopFuel rfl (by rw [hcontent]; omega) rfl
    fun f => ?_)
  dsimp only
  rw [hcontent, List.drop_zero]
  have hfuel : rs.length < loopFuel := by
    have hle := length_le_recordsBytes rs
    rw [loopFuel]
    omega
  have hshows := scan_copies hfuel hput
  generalize scan (fun _ idx => idx) 0 loopFuel (recordsBytes rs) 0 ∅ = idx at hshows
  refine wp_close (hreads fs2 hm2) (Env.wp_pure_bind (wp_closeFile (hreads fs2 hm2) ?_))
  refine wp_remove (a := .index) trivial ⟨hinvB _ _ hm2, hmild _ _⟩ fun fs3 b hf3 hnone3 => ?_
  have hm3 := hm2.index hn hlt hf3
  -- the index is written anew
  have hkeys : ∀ it ∈ st.order.arrange idx.entries, it.1.length ≤ maxKeyLen := by
    intro it hit
    obtain ⟨t, ht, -⟩ := hshows.key_mem ((st.order.perm _).mem_iff.1 hit)
    rw [← (scanned_eq_some ht).2.1]
    exact t.record.key_le
  refine Prog.wp_bind.2 (wp_writeIndexBulk (by exact hn) (by exact hkeys) hnone3 hmild
    (fun c fs' hf' => hinvB c fs' (hm3.index hn hlt hf')) fun fs4 hf4 hfile4 => ?_)
  have hm4 := hm3.index hn hlt hf4
  refine Prog.wp_bind.2 (wp_openIndexForAppend hfile4 ⟨hinvB _ _ hm4, hmild _ _⟩ fun k hk => ?_)
  refine Env.wp_ret (hQ idx k (bulkEntries (st.order.arrange idx.entries) hkeys) fs4 hm4 hshows
    hfile4 hk ?_ ?_ ?_ hlen)
  · intro key
    rw [foldl_bulkEntries, foldl_insert_lookup (st.order.perm idx.entries)]
    exact hshows key
  · rw [bulkEntries, List.length_pmap]
    have hle := hshows.length_le
    rw [length_locate] at hle
    have hsub := (List.takeWhile_sublist Record.keyed (l := rs)).length_le
    have hperm := (st.order.perm idx.entries).length_eq
    omega
  · exact fun e he => hshows.bulkEntries_leads (st.order.perm idx.entries)
      (fun k t ht => (scanned_eq_some ht).2.1) hkeys he

end finalize

/-! ## What a compaction copies

`compact` goes over the index once for every segment and collects the offsets of the entries there;
the records at these offsets are the ones it copies. -/

/-- Has the record expired, going by what the index keeps of its TTL? -/
def Store.expires (st : Store) (now : UInt32) (r : Record) : Bool :=
  st.isTtlExpired now r.hdr.timestamp (UInt24.ofNat r.hdr.ttl.toNat).toNat

/-- The records a compaction of the segments below `n` is about: those that have not expired. -/
def Store.survivors (st : Store) (L : Log) (now : UInt32) (n : Nat) : Live := fun k =>
  (L.live k).filter fun t => !st.expires now t.record && t.seg < n

section image

variable {st : Store} {L : Log} {pre : Path} {count : Nat} {fs : FileSystem}

/-- Without TTLs nothing expires. -/
theorem expires_eq_false (h : st.policyTtlSecs = 0) {r : Record} (hr : r.hdr.ttl = 0)
    (now : UInt32) : st.expires now r = false := by
  rw [Store.expires, Store.isTtlExpired, h, hr]
  simp [UInt24.toNat_ofNat]

/-- What survives is live, in force and in a segment that was copied. -/
theorem survivors_eq_some {now : UInt32} {n : Nat} {k : Key} {t : Located} :
    st.survivors L now n k = some t ↔
      L.live k = some t ∧ st.expires now t.record = false ∧ t.seg < n := by
  simp [Store.survivors, Option.filter_eq_some_iff]

/-- The index keeps the segment number of a record. -/
theorem Disk.indexValue_segment (hd : Disk pre count fs L) {k : Key} {t : Located}
    (ht : L.live k = some t) : t.indexValue.segment.toNat = t.seg := by
  obtain ⟨g, hg, -⟩ := hd.ok.has k t (hd.ok.sub k t ht)
  exact Nat.mod_eq_of_lt (Nat.lt_trans (hd.ok.segs_lt _ g hg) (spanOf_lt hd.lt))

/-- It keeps the offset as well, which fits. -/
theorem Disk.indexValue_offset (hd : Disk pre count fs L) {k : Key} {t : Located}
    (ht : L.live k = some t) : t.indexValue.offset.toNat = t.off :=
  UInt24.toNat_ofNat (hd.ok.off k t (hd.ok.sub k t ht))

/-- The entries of the index are the live keys. -/
theorem mem_items (hs : st.index.Shows L.live) {it : IndexItem} :
    it ∈ st.items ↔ ∃ t, L.live it.1 = some t ∧ t.indexValue = it.2 := by
  rw [Store.items, (st.order.perm _).mem_iff, ← Option.map_eq_some_iff, ← hs it.1]
  exact AList.mem_lookup_iff.symm

/-- The offsets a compaction visits are those of the live records that have not expired. -/
theorem mem_liveOffsets (hd : Disk pre count fs L) (hs : st.index.Shows L.live) {now : UInt32}
    {s off : Nat} : off ∈ st.liveOffsets now s ↔
      ∃ k t, L.live k = some t ∧ st.expires now t.record = false ∧ t.seg = s ∧ t.off = off := by
  rw [Store.liveOffsets, (List.perm_insertionSort _ _).mem_iff, List.mem_map]
  constructor
  · rintro ⟨it, hit, rfl⟩
    rw [List.mem_filter, Bool.and_eq_true, decide_eq_true_eq, Bool.not_eq_true'] at hit
    obtain ⟨hit, hseg, hexp⟩ := hit
    obtain ⟨t, ht, hv⟩ := (mem_items hs).1 hit
    rw [← hv] at hseg hexp ⊢
    exact ⟨it.1, t, ht, hexp, by rw [← hseg, hd.indexValue_segment ht],
      (hd.indexValue_offset ht).symm⟩
  · rintro ⟨k, t, ht, hexp, rfl, rfl⟩
    refine ⟨⟨k, t.indexValue⟩, ?_, hd.indexValue_offset ht⟩
    rw [List.mem_filter, Bool.and_eq_true, decide_eq_true_eq, Bool.not_eq_true']
    exact ⟨(mem_items hs).2 ⟨t, ht, rfl⟩, hd.indexValue_segment ht, hexp⟩

/-- What is copied of a segment. -/
theorem mem_copies (hd : Disk pre count fs L) (hs : st.index.Shows L.live) {now : UInt32} {s : Nat}
    {r : Record} : r ∈ st.copies L now s ↔
      ∃ k t, L.live k = some t ∧ st.expires now t.record = false ∧ t.seg = s ∧ t.record = r := by
  have hread {k : Key} {t : Located} {g : Segment} (ht : L.live k = some t)
      (hg : L.segs t.seg = some g) : readRecord (g.bytes.drop t.off) = some t.record := by
    obtain ⟨g', hg', rest, hrest⟩ := hd.ok.has k t (hd.ok.sub k t ht)
    obtain rfl : g = g' := Option.some.inj (hg.symm.trans hg')
    rw [← hrest, readRecord_bytes]
  rw [Store.copies]
  cases hg : L.segs s with
  | none =>
    constructor
    · intro h
      cases h
    · rintro ⟨k, t, ht, -, rfl, -⟩
      obtain ⟨g, hg', -⟩ := hd.ok.has k t (hd.ok.sub k t ht)
      cases hg.symm.trans hg'
  | some g =>
    dsimp only
    rw [copied, List.mem_filterMap]
    constructor
    · rintro ⟨off, hoff, hr⟩
      obtain ⟨k, t, ht, hexp, rfl, rfl⟩ := (mem_liveOffsets hd hs).1 hoff
      exact ⟨k, t, ht, hexp, rfl, Option.some.inj ((hread ht hg).symm.trans hr)⟩
    · rintro ⟨k, t, ht, hexp, rfl, rfl⟩
      exact ⟨t.off, (mem_liveOffsets hd hs).2 ⟨k, t, ht, hexp, rfl, rfl⟩, hread ht hg⟩

/-- **A compaction copies the live records that have not expired and nothing else.** -/
theorem mem_image (hd : Disk pre count fs L) (hs : st.index.Shows L.live) {now : UInt32} {n : Nat}
    {r : Record} : r ∈ st.image L now n ↔
      ∃ k t, st.survivors L now n k = some t ∧ t.record = r := by
  simp only [survivors_eq_some]
  induction n with
  | zero => simp [Store.image]
  | succ n ih =>
    rw [Store.image, List.mem_append, ih, mem_copies hd hs]
    constructor
    · rintro (⟨k, t, ⟨ht, hexp, hlt⟩, hr⟩ | ⟨k, t, ht, hexp, rfl, hr⟩)
      · exact ⟨k, t, ⟨ht, hexp, Nat.lt_succ_of_lt hlt⟩, hr⟩
      · exact ⟨k, t, ⟨ht, hexp, Nat.lt_succ_self _⟩, hr⟩
    · rintro ⟨k, t, ⟨ht, hexp, hlt⟩, hr⟩
      rcases Nat.lt_succ_iff_lt_or_eq.1 hlt with h | h
      · exact .inl ⟨k, t, ⟨ht, hexp, h⟩, hr⟩
      · exact .inr ⟨k, t, ht, hexp, h, hr⟩

/-- What a compaction copies was put. -/
theorem image_put (hd : Disk pre count fs L) (hs : st.index.Shows L.live) {now : UInt32} {n : Nat}
    {r : Record} (hr : r ∈ st.image L now n) :
    ∃ t, L.live r.key = some t ∧ t.record = r ∧ ¬r.deletes ∧ st.expires now r = false ∧
      t.seg < n := by
  obtain ⟨k, t, ht, rfl⟩ := (mem_image hd hs).1 hr
  obtain ⟨ht, hexp, hlt⟩ := survivors_eq_some.1 ht
  have hsaved := hd.ok.sub k t ht
  rw [hd.ok.key k t hsaved]
  exact ⟨t, ht, rfl, hd.ok.put k t hsaved, hexp, hlt⟩

/-- What is found in the copies was live. -/
theorem scanned_image (hd : Disk pre count fs L) (hs : st.index.Shows L.live) {now : UInt32}
    {n : Nat} {k : Key} {t' : Located} (h : scanned (st.image L now n) k = some t') :
    ∃ t, st.survivors L now n k = some t ∧ t.record = t'.record := by
  obtain ⟨hmem, hk, -⟩ := scanned_eq_some h
  obtain ⟨t, ht, hr, -, hexp, hlt⟩ := image_put hd hs (record_mem_of_mem_locate hmem)
  rw [hk] at ht
  exact ⟨t, survivors_eq_some.2 ⟨ht, hr ▸ hexp, hlt⟩, hr⟩

/-- **A scan of the copies finds what has been copied**, unless there is an empty key among it. -/
theorem scanned_image_eq (hd : Disk pre count fs L) (hs : st.index.Shows L.live) {now : UInt32}
    {n : Nat} (hkey : st.survivors L now n [] = none) (k : Key) :
    (scanned (st.image L now n) k).map Located.record
      = (st.survivors L now n k).map Located.record := by
  have hput (k : Key) (t : Located) (ht : st.survivors L now n k = some t) :
      t.record.key = k ∧ ¬t.record.deletes := by
    have hsaved := hd.ok.sub k t (survivors_eq_some.1 ht).1
    exact ⟨hd.ok.key k t hsaved, hd.ok.put k t hsaved⟩
  rw [scanned_eq]
  · exact replay_live hput (fun k t ht => (mem_image hd hs).2 ⟨k, t, ht, rfl⟩)
      (fun r hr => (mem_image hd hs).1 hr) k
  · intro r hr hnil
    obtain ⟨k, t, ht, rfl⟩ := (mem_image hd hs).1 hr
    obtain rfl := (hput k t ht).1.symm.trans hnil
    cases hkey.symm.trans ht

end image

/-! ## Compactions

`Store.compactInto` is `compact` from the point where `compact.tmp` has been opened; nothing that
comes before it touches a log. -/

/-- The journal of a committed compaction. -/
def commitJournal : Journal :=
  ⟨journalMagic, UInt32.ofNat JournalState.commit.code, UInt32.ofNat 0, UInt32.ofNat 0⟩

/-- The files after the commit: `compact.tmp` is complete, or it has become segment 0. -/
def AfterCommit (E : Env) (st : Store) (rs : List Record) (fs : FileSystem) : Prop :=
  (E.Faultless → fs.file st.journalName = some commitJournal.encode) ∧
    (fs.file st.tmpName = some (recordsBytes rs) ∨
      fs.dir st.tmpName = none ∧ fs.file (st.segmentName 0) = some (recordsBytes rs) ∧
        ∀ s, 0 < s → s < st.count → fs.dir (st.segmentName s) = none)

section compact

variable {E : Env} {st : Store} {L : Log} {fs : FileSystem}

/-- The journal is removed. -/
theorem wp_clearJournal (hok : E.Ok (.remove st.journalName) fs) {Q : Unit → FileSystem → Prop}
    (hQ : ∀ fs', Frame (Names st.basePrefix (· = .journal)) fs fs' →
      fs'.dir st.journalName = none → Q () fs') : E.wp st.clearJournal Q fs := by
  rw [Store.clearJournal]
  exact wp_remove (a := .journal) trivial hok fun fs' _ hf hnone => Env.wp_ret (hQ fs' hf hnone)

/-- The files of a finished compaction represent the compacted log. -/
theorem Moved.disk {rs : List Record} {es : List IndexEntry} {fs' fs'' : FileSystem}
    (hn : NamesOk st.basePrefix) (hlt : st.count < 256)
    (hok : (L.compacted st.count rs es).Ok st.count) (hm : Moved st rs fs fs')
    (hsegs : ∀ s, st.count ≤ s → s < spanOf st.count →
      fs.file (st.segmentName s) = (L.segs s).map Segment.bytes)
    (hindex : fs'.file st.indexName = some (entriesBytes es))
    (hf : Frame (Names st.basePrefix (· = .journal)) fs' fs'')
    (hjournal : fs''.dir st.journalName = none) :
    Disk st.basePrefix st.count fs'' (L.compacted st.count rs es) where
  names := hn
  lt := hlt
  ok := hok
  segs s hs := by
    have hs256 := Nat.lt_trans hs (spanOf_lt hlt)
    rw [hf.file (hn.not_mem (.segment s) hs256 (by simp))]
    by_cases h0 : s = 0
    · subst h0
      rw [hm.first]
      simp [Log.compacted, Segment.bytes]
    · by_cases hc : s < st.count
      · rw [FileSystem.file_eq_none.2 (hm.gone s (Nat.pos_of_ne_zero h0) hc)]
        simp [Log.compacted, h0, hc]
      · rw [hm.rest s (Nat.pos_of_ne_zero h0) (Nat.not_lt.1 hc) hs256, hsegs s (Nat.not_lt.1 hc) hs]
        simp [Log.compacted, h0, hc]
  index := by
    rw [hf.file (hn.not_mem .index trivial (by simp)), hindex]
    simp [Log.compacted]
  journal := .of_none hjournal

/-- The part of `compact` behind the eviction. -/
def Store.compactInto (st : Store) (now : UInt32) (outf : Handle) : FsM (Bool × Store) := do
  let (writeOk, committedSegs, outf) ← st.compactLoop now st.count 0 outf
  outf.flush
  outf.close
  if !writeOk then
    if committedSegs = 0 then
      let _ ← removeFile st.tmpName
      st.clearJournal
      pure (false, st)
    else pure (false, st)
  else
    st.writeJournal .commit 0 0
    let st ← st.finalizeCompaction
    st.clearJournal
    pure (true, { st with deadSinceCompact := 0 })

/-- `compact`, with its main part named. -/
theorem Store.compact_eq (st : Store) (now : UInt32) : st.compact now = (do
    st.writeJournal .compacting 0 0
    match ← openFile st.tmpName .write with
    | none =>
      st.clearJournal
      pure (false, st)
    | some outf => st.pruneIndexToMaxRecs.2.compactInto now outf) := rfl

/-- The journal and `compact.tmp` are what a compaction may touch besides. -/
theorem Frame.scratch {pre : Path} (a : StoreFile) (ha : a.scratch) {fs fs' : FileSystem}
    (hf : Frame (Names pre (· = a)) fs fs') : Frame (Names pre StoreFile.scratch) fs fs' :=
  hf.mono fun p hp => hp.mono (fun _ hb => hb ▸ ha) p

/-- With `compact.tmp` open, the live records that have not expired end up in segment 0, or copying
fails and everything stays as it was. -/
theorem wp_compactInto {now : UInt32} {fs₀ : FileSystem}
    (hd : Disk st.basePrefix st.count fs₀ L) (hs : st.index.Shows L.live)
    (hmild : ∀ c fs, E.allowed fs c → Scratch st.basePrefix fs c)
    (hinv : ∀ c fs', ¬c.logs → Midway E st L now fs₀ c fs' → E.inv c fs')
    (hcommit : ∀ c fs', AfterCommit E st (st.image L now st.count) fs' → E.inv c fs')
    (hsmall : ∀ fs', fs'.file (st.segmentName 0)
        = some (recordsBytes (st.image L now st.count)) → E.rely fs' →
      (recordsBytes (st.image L now st.count)).length < 2 ^ 24)
    (hf : Frame (Names st.basePrefix StoreFile.scratch) fs₀ fs)
    (hj : E.Faultless → fs.file st.journalName = some (st.journalAt L now 0).encode)
    {outf : Handle} (hout : Output st [] outf fs) {Q : Bool × Store → FileSystem → Prop}
    (hQ : ∀ idx i es fs', Disk st.basePrefix st.count fs'
        (L.compacted st.count (st.image L now st.count) es) →
      (∀ e ∈ es, ∃ t, scanned (st.image L now st.count) e.key = some t ∧ e.Leads t) →
      idx.Shows (scanned (st.image L now st.count)) →
      fs'.dir st.indexName = some i →
      Q (true, { st with
        index := idx
        indexFile := some ⟨i, 0, .append⟩
        currentSegment := 0
        deadSinceCompact := 0 }) fs')
    (hQf : ¬E.Faultless → ∀ fs', Frame (Names st.basePrefix StoreFile.scratch) fs₀ fs' →
      Settled st.basePrefix fs' → Q (false, st) fs') :
    E.wp (st.compactInto now outf) Q fs := by
  rw [Store.compactInto]
  refine Prog.wp_bind.2 (wp_compactLoop hd hmild hinv (Nat.zero_add _) (.start hf) hj hout ?_ ?_)
  · -- everything has been copied
    intro outf fs3 hcp hj hout
    have hat3 (c : Call) (hc : ¬c.logs) : E.inv c fs3 :=
      hinv c fs3 hc ⟨_, _, hcp, fun hno => ⟨.inl (hj hno), fun _ => hout.complete⟩⟩
    have hE := Env.reads_of hat3 hmild
    dsimp only
    refine wp_flush hE (wp_close hE ?_)
    rw [if_neg (by decide)]
    refine Env.wp_seq (Q := fun _ fs' => Frame (Names st.basePrefix (· = .journal)) fs3 fs' ∧
      (E.Faultless → fs'.file st.journalName = some commitJournal.encode))
      (wp_writeJournal (j := commitJournal) rfl hmild ?_ fun fs' hf hj => ⟨hf, hj⟩) ?_
    · intro c fs' hc hf hrw
      have htmp := hd.names.not_mem (S := (· = .journal)) .tmp trivial (by simp)
      by_cases hno : E.Faultless
      · rcases hrw hno with h | h | h
        · exact hinv c fs' hc ⟨_, _, hcp.journal hd.names hd.lt hf,
            fun _ => ⟨.inl (h.trans (hj hno)), fun _ => hout.complete.frame hf htmp⟩⟩
        · exact hinv c fs' hc ⟨_, _, hcp.journal hd.names hd.lt hf,
            fun _ => ⟨.inr (.inl h), fun _ => hout.complete.frame hf htmp⟩⟩
        · have hout' := hout.frame hf (hd.names.not_mem .tmp trivial (by simp))
          refine hcommit c fs' ⟨fun _ => h, .inl ?_⟩
          rw [FileSystem.file_eq_some hout'.dir, hout'.data]
      · exact hinv c fs' hc ⟨_, _, hcp.journal hd.names hd.lt hf, fun h => absurd h hno⟩
    rintro - fs4 ⟨hf4, hj4⟩
    have hcp4 := hcp.journal hd.names hd.lt hf4
    have hout4 := hout.frame hf4 (hd.names.not_mem .tmp trivial (by simp))
    have htmp4 : fs4.file st.tmpName = some (recordsBytes (st.image L now st.count)) := by
      rw [FileSystem.file_eq_some hout4.dir, hout4.data]
    have hput : ∀ r ∈ st.image L now st.count, ¬r.deletes := by
      intro r hr
      obtain ⟨t, -, -, hdel, -⟩ := image_put hd hs hr
      exact hdel
    have hmoved (fs' : FileSystem) (hm : Moved st (st.image L now st.count) fs4 fs') :
        AfterCommit E st (st.image L now st.count) fs' :=
      ⟨fun hno => (hm.frame.file (hd.names.not_mem .journal trivial (by simp))).trans (hj4 hno),
        .inr ⟨hm.tmp, hm.first, hm.gone⟩⟩
    refine Prog.wp_bind.2 (wp_finalizeCompaction hd.names hd.lt hmild htmp4 hput hsmall
      (fun c fs' _ hf => hcommit c fs' ⟨fun hno => ?_, .inl ?_⟩)
      (fun c fs' hm => hcommit c fs' (hmoved fs' hm))
      fun idx j es fs5 hm hshows hfile hj5 hes hle hleads hlen => ?_)
    · exact (hf.file (hd.names.not_mem .journal trivial id)).trans (hj4 hno)
    · exact (hf.file (hd.names.not_mem .tmp trivial id)).trans htmp4
    refine Prog.wp_bind.2 (wp_clearJournal ⟨hcommit _ _ (hmoved fs5 hm), hmild _ _⟩
      fun fs6 hf6 hnone => ?_)
    refine Env.wp_ret (hQ idx j es fs6 ?_ hleads hshows
      ((hf6.dir (hd.names.not_mem .index trivial (by simp))).trans hj5))
    refine hm.disk hd.names hd.lt (Log.compacted_ok hd.ok hlen hes hle) (fun s hc hs => ?_) hfile hf6
      hnone
    have hs256 := Nat.lt_trans hs (spanOf_lt hd.lt)
    rw [hcp4.frame.file (hd.names.not_mem (.segment s) hs256 ?_)]
    · exact hd.segs s hs
    · rintro (h | ⟨s', hs', he⟩)
      · exact h
      · have := StoreFile.segment.inj he
        omega
  · -- the first segment could not be copied
    intro hno outf fs3 hcp
    have hat3 (c : Call) (hc : ¬c.logs) : E.inv c fs3 :=
      hinv c fs3 hc ⟨_, _, hcp, fun h => absurd h hno⟩
    have hE := Env.reads_of hat3 hmild
    dsimp only
    refine wp_flush hE (wp_close hE ?_)
    rw [if_pos (by rfl)]
    refine wp_remove (a := .tmp) trivial ⟨hat3 _ id, hmild _ _⟩ fun fs4 b hf4 hnone4 => ?_
    have hframe3 : Frame (Names st.basePrefix StoreFile.scratch) fs₀ fs3 := by
      refine hcp.frame.mono fun p hp => hp.mono (fun a ha => ?_) p
      exact ha.resolve_right fun ⟨s, hs, _⟩ => absurd hs (Nat.not_lt_zero s)
    have hframe4 := hframe3.trans (hf4.scratch .tmp trivial)
    refine Prog.wp_bind.2 (wp_clearJournal
      ⟨hinv _ _ id ⟨0, 0, .start hframe4, fun h => absurd h hno⟩, hmild _ _⟩ fun fs5 hf5 hnone => ?_)
    exact hQf hno fs5 (hframe4.trans (hf5.scratch .journal trivial)) (.of_none hnone)

/-- **Compaction.**  `compact` puts the live records that have not expired into segment 0, or fails
and leaves everything as it was.  It evicts first; `L` shows what is left. -/
theorem wp_compact {now : UInt32} {n d : Nat} {idx₁ : Index}
    (hprune : st.pruneIndexToMaxRecs = (n, { st with index := idx₁, deadSinceCompact := d }))
    {st₁ : Store} (hst₁ : { st with index := idx₁, deadSinceCompact := d } = st₁)
    (hd : Disk st.basePrefix st.count fs L) (hs : idx₁.Shows L.live)
    (hmild : ∀ c fs, E.allowed fs c → Scratch st.basePrefix fs c)
    (hinv : ∀ c fs', ¬c.logs → Midway E st₁ L now fs c fs' → E.inv c fs')
    (hcommit : ∀ c fs', AfterCommit E st₁ (st₁.image L now st.count) fs' → E.inv c fs')
    (hsmall : ∀ fs', fs'.file (st.segmentName 0)
        = some (recordsBytes (st₁.image L now st.count)) → E.rely fs' →
      (recordsBytes (st₁.image L now st.count)).length < 2 ^ 24)
    {Q : Bool × Store → FileSystem → Prop}
    (hQ : ∀ idx i es fs', Disk st.basePrefix st.count fs'
        (L.compacted st.count (st₁.image L now st.count) es) →
      (∀ e ∈ es, ∃ t, scanned (st₁.image L now st.count) e.key = some t ∧ e.Leads t) →
      idx.Shows (scanned (st₁.image L now st.count)) →
      fs'.dir st.indexName = some i →
      Q (true, { st with
        index := idx
        indexFile := some ⟨i, 0, .append⟩
        currentSegment := 0
        deadSinceCompact := 0 }) fs')
    (hQf : ¬E.Faultless → ∀ st' fs', st' = st ∨ st' = st₁ →
      Frame (Names st.basePrefix StoreFile.scratch) fs fs' →
      Settled st.basePrefix fs' → Q (false, st') fs') :
    E.wp (st.compact now) Q fs := by
  rw [Store.compact_eq, hprune]
  refine Env.wp_seq (Q := fun _ fs' => Frame (Names st.basePrefix StoreFile.scratch) fs fs' ∧
    (E.Faultless → fs'.file st.journalName = some (st₁.journalAt L now 0).encode))
    (wp_writeJournal (j := st₁.journalAt L now 0) rfl hmild ?_
      fun fs' hf hj => ⟨hf.scratch .journal trivial, hj⟩) ?_
  · intro c fs' hc hf hrw
    subst hst₁
    refine hinv c fs' hc ⟨0, 0, .start (hf.scratch .journal trivial), fun hno =>
      ⟨?_, fun h => absurd h (Nat.lt_irrefl 0)⟩⟩
    rcases hrw hno with h | h | h
    · refine .inr (.inr ⟨rfl, fun bs hbs => ?_⟩)
      rw [hf.dir (hd.names.not_mem .tmp trivial (by simp))]
      exact hd.journal bs (h.symm.trans hbs)
    · exact .inr (.inl h)
    · exact .inl h
  rintro - fs1 ⟨hf1, hj1⟩
  have hat1 (c : Call) (hc : ¬c.logs) : E.inv c fs1 := by
    subst hst₁
    exact hinv c fs1 hc ⟨0, 0, .start hf1, fun hno =>
      ⟨.inl (hj1 hno), fun h => absurd h (Nat.lt_irrefl 0)⟩⟩
  refine wp_openWrite (a := .tmp) trivial (hat1 _ id) (fun fs2 i hf2 hi hnil => ?_) fun ha => ?_
  swap
  · -- `compact.tmp` could not be opened
    have hno : ¬E.Faultless := fun hno => hno _ _ ha
    refine Prog.wp_bind.2 (wp_clearJournal ⟨hat1 _ id, hmild _ _⟩ fun fs2 hf2 hnone => ?_)
    exact hQf hno st fs2 (.inl rfl) (hf1.trans (hf2.scratch .journal trivial)) (.of_none hnone)
  subst hst₁
  refine wp_compactInto (by exact hd) (by exact hs) (by exact hmild) (by exact hinv)
    (by exact hcommit) (by exact hsmall) (by exact hf1.trans (hf2.scratch .tmp trivial)) (fun hno => ?_)
    ⟨rfl, hi, hnil, rfl⟩ (by exact hQ)
    fun hno fs' => by exact hQf hno _ fs' (.inr rfl)
  exact (hf2.file (hd.names.not_mem .journal trivial (by simp))).trans (hj1 hno)

end compact

end MicroStore
