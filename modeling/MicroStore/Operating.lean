import MicroStore.LogStep

/-!
# What the operations do

The specifications of `rotate_segment_if_needed`, `put`, `remove`, the compaction behind them and the
reading operations, each as a step from one represented log to the next.

## States and steps

`Ready` is the state between two operations: the store represents a log and its active file is open on
the current segment.  A step of a store is described twice, because a run is looked at in two ways.

* `Carries` — what a step that is not a put or a remove does to a log: nothing is added, and the
  invariants that held before hold afterwards.  It composes, so an operation made of several such steps
  is one.
* `Keeps` — what such a step does not lose.
* `Stored` — the step of a put or a remove: a record is appended, some index results, and the rest
  carries the log on.

## What is here

* `Streamed` and `wp_append_streamed` — a record on its way through the write buffer.
* `wp_openSegment`, `Rep.wp_compact`, `wp_compactIfThreshold`, `wp_rotateSegmentIfNeeded` — the parts of
  a put that come before or after the record itself.
* `wp_persistRecord` — the record has been written, its entry follows.
* `Store.wp_put`, `Store.wp_remove` — the operations.

## Assertions in the middle

`Env.AtRecord` and `Env.AtEntry` are what has to hold while a record or its entry is being written.  In
a run without a power loss they demand nothing; with one, they are where the operation is torn.
-/

set_option autoImplicit false

namespace MicroStore

/-! ## States and steps -/

/-- A store between two operations: it represents a log, and both its files can be appended to. -/
structure Ready (st : Store) (fs : FileSystem) (L : Log) : Prop where
  /-- The store represents the log. -/
  rep : Rep st fs L
  /-- The current segment is open. -/
  active : ∃ g, Active st fs L g
  /-- The index file ends with an entry. -/
  indexTail : L.indexTail = []

/-- The stores have the same prefix, number of segments and policies. -/
structure SameConfig (st st' : Store) : Prop where
  /-- The prefix is as before. -/
  pre : st'.basePrefix = st.basePrefix
  /-- The number of segments is as before. -/
  segmentCount : st'.segmentCount = st.segmentCount
  /-- The TTL policy is as before. -/
  ttl : st'.policyTtlSecs = st.policyTtlSecs
  /-- The limit on records is as before. -/
  maxRecs : st'.policyMaxRecs = st.policyMaxRecs

/-- The step keeps the configuration and makes no key visible.  It keeps an ordered log ordered and,
without policies, a tidy log tidy with all its keys and values. -/
structure Carries (st : Store) (L : Log) (st' : Store) (L' : Log) : Prop extends SameConfig st st' where
  /-- What is live was live, with the same record. -/
  live : ∀ k t', L'.live k = some t' → ∃ t, L.live k = some t ∧ t.record = t'.record
  /-- What the index file leads to was there, with the same record. -/
  saved : ∀ k t', L'.saved k = some t' → ∃ t, L.saved k = some t ∧ t.record = t'.record
  /-- Entries go on leading to records. -/
  sound : L.Sound → L'.Sound
  /-- A scan goes on agreeing with the index file. -/
  ordered : L.Ordered st.count st.currentSegment → L'.Ordered st'.count st'.currentSegment
  /-- Without TTLs and evictions the map of keys and values is the same. -/
  tidy : st.policyTtlSecs = 0 → st.policyMaxRecs = 0 → L.Tidy st.count st.currentSegment →
    L'.Tidy st'.count st'.currentSegment ∧ L'.view = L.view

/-- The step loses no record but those that have expired or are evicted, given that there are two
segments and no empty key. -/
def Keeps (now : UInt32) (st : Store) (L L' : Log) : Prop :=
  2 ≤ st.count → L.live [] = none → ∀ k t, L.live k = some t → st.expires now t.record = false →
    (st.pruneIndexToMaxRecs.2.indexFind k).isSome →
    ∃ t', L'.live k = some t' ∧ t'.record = t.record

/-- Doing nothing. -/
theorem SameConfig.refl (st : Store) : SameConfig st st := ⟨rfl, rfl, rfl, rfl⟩

/-- One step after another. -/
theorem SameConfig.trans {st st' st'' : Store} (h : SameConfig st st') (h' : SameConfig st' st'') :
    SameConfig st st'' :=
  ⟨h'.pre.trans h.pre, h'.segmentCount.trans h.segmentCount, h'.ttl.trans h.ttl,
    h'.maxRecs.trans h.maxRecs⟩

/-- The number of segments as a store uses it. -/
theorem SameConfig.count {st st' : Store} (h : SameConfig st st') : st'.count = st.count := by
  rw [Store.count, h.segmentCount, Store.count]

/-- Doing nothing loses nothing. -/
theorem Keeps.refl (now : UInt32) (st : Store) (L : Log) : Keeps now st L L :=
  fun _ _ _ t ht _ _ => ⟨t, ht, rfl⟩

namespace Carries

variable {st st' st'' : Store} {L L' L'' : Log}

theorem refl (st : Store) (L : Log) : Carries st L st L :=
  ⟨.refl st, fun _ t ht => ⟨t, ht, rfl⟩, fun _ t ht => ⟨t, ht, rfl⟩, id, id, fun _ _ h => ⟨h, rfl⟩⟩

theorem trans (h : Carries st L st' L') (h' : Carries st' L' st'' L'') : Carries st L st'' L'' where
  toSameConfig := h.toSameConfig.trans h'.toSameConfig
  live k t'' ht := by
    obtain ⟨t', ht', he'⟩ := h'.live k t'' ht
    obtain ⟨t, ht, he⟩ := h.live k t' ht'
    exact ⟨t, ht, he.trans he'⟩
  saved k t'' ht := by
    obtain ⟨t', ht', he'⟩ := h'.saved k t'' ht
    obtain ⟨t, ht, he⟩ := h.saved k t' ht'
    exact ⟨t, ht, he.trans he'⟩
  sound := h'.sound ∘ h.sound
  ordered := h'.ordered ∘ h.ordered
  tidy httl hmax ht := by
    obtain ⟨ht', hv⟩ := h.tidy httl hmax ht
    obtain ⟨ht'', hv'⟩ := h'.tidy (h.ttl.trans httl) (h.maxRecs.trans hmax) ht'
    exact ⟨ht'', hv'.trans hv⟩

end Carries

/-- Opening a segment behind the ones there are carries the log on. -/
theorem Carries.opened {st st' : Store} {L : Log} {s : Nat} (h : SameConfig st st')
    (hcur : st'.currentSegment = s) (habove : L.Ordered st.count st.currentSegment →
      ∀ s', s < s' → L.segs s' = none) : Carries st L st' (L.opened s) where
  toSameConfig := h
  live _ t ht := ⟨t, ht, rfl⟩
  saved _ t ht := ⟨t, ht, rfl⟩
  sound := Log.opened_sound
  ordered ho := by
    rw [h.count, hcur]
    exact Log.opened_ordered ho (habove ho)
  tidy _ _ ht := by
    rw [h.count, hcur]
    exact ⟨Log.opened_tidy ht (habove ht.toOrdered), rfl⟩

/-- The index may lose entries, but none of a tidy log without policies. -/
theorem Carries.narrow {st st' : Store} {L : Log} {m : Live} (h : SameConfig st st')
    (hcur : st'.currentSegment = st.currentSegment) (hm : ∀ k t, m k = some t → L.live k = some t)
    (hid : st.policyTtlSecs = 0 → st.policyMaxRecs = 0 → L.Tidy st.count st.currentSegment →
      m = L.live) : Carries st L st' (L.narrow m) where
  toSameConfig := h
  live k t ht := ⟨t, hm k t ht, rfl⟩
  saved _ t ht := ⟨t, ht, rfl⟩
  sound hs := hs
  ordered ho := by
    rw [h.count, hcur]
    exact ho.narrow
  tidy httl hmax ht := by
    rw [h.count, hcur, hid httl hmax ht]
    exact ⟨ht, rfl⟩

section specs

variable {E : Env} {st : Store} {fs : FileSystem} {L : Log}

/-! ## Writing through the buffer

A record is appended in chunks, and the buffer may be flushed at any of them.  What is kept track of
is the whole of what has been put into it since the operation began. -/

/-- The active file and the write buffer have taken in the bytes `w`. -/
def Streamed (st₀ : Store) (f₀ : Handle) (fs₀ : FileSystem) (w : Bytes) (st : Store)
    (fs : FileSystem) : Prop :=
  ∃ (f : Handle) (x buf : Bytes), st = { st₀ with activeFile := some f, writeBuf := buf } ∧
    f.ino = f₀.ino ∧ f.mode = .readAppend ∧ fs = fs₀.setData f₀.ino (fs₀.data f₀.ino ++ x) ∧
    x ++ buf = w ∧ buf.length < writeBufferSize

/-- Before the first chunk. -/
theorem Streamed.start {f : Handle} (hf : st.activeFile = some f) (hm : f.mode = .readAppend)
    (hbuf : st.writeBuf = []) : Streamed st f fs [] st fs := by
  refine ⟨f, [], [], ?_, rfl, hm, ?_, rfl, by decide⟩
  · rw [← hf, ← hbuf]
  · rw [List.append_nil, FileSystem.setData_data]

/-- A chunk is taken in. -/
theorem wp_append_streamed {st₀ : Store} {f₀ : Handle} {fs₀ : FileSystem} {w data full : Bytes}
    (h : Streamed st₀ f₀ fs₀ w st fs) (hE : E.Streams fs₀ f₀.ino full)
    (hpre : fs₀.data f₀.ino ++ (w ++ data) <+: full) :
    E.wp (st.appendBuffer data) (Streamed st₀ f₀ fs₀ (w ++ data)) fs := by
  obtain ⟨f, x, buf, rfl, hi, hm, rfl, rfl, hlen⟩ := h
  have hstep : E.Streams (fs₀.setData f₀.ino (fs₀.data f₀.ino ++ x)) f.ino full := by
    rw [hi]
    exact hE.step (List.prefix_append ..)
  refine wp_appendBuffer rfl hm hstep ?_ hlen fun f' y buf' hi' hm' hy hlen' => ?_
  · rw [hi, FileSystem.data_setData_self]
    simpa only [List.append_assoc] using hpre
  · refine ⟨f', x ++ y, buf', rfl, hi'.trans hi, hm', ?_, ?_, hlen'⟩
    · rw [hi, FileSystem.data_setData_self, FileSystem.setData_setData, List.append_assoc]
    · rw [List.append_assoc, hy, List.append_assoc]

/-- A flush puts everything into the file. -/
theorem wp_flush_streamed {st₀ : Store} {f₀ : Handle} {fs₀ : FileSystem} {w full : Bytes}
    (h : Streamed st₀ f₀ fs₀ w st fs) (hE : E.Streams fs₀ f₀.ino full)
    (hpre : fs₀.data f₀.ino ++ w <+: full) :
    E.wp st.flushBuffer (fun y fs' => ∃ f : Handle, f.ino = f₀.ino ∧ f.mode = .readAppend ∧
      y = (true, { st₀ with activeFile := some f, writeBuf := [] }) ∧
      fs' = fs₀.setData f₀.ino (fs₀.data f₀.ino ++ w)) fs := by
  obtain ⟨f, x, buf, rfl, hi, hm, rfl, rfl, hlen⟩ := h
  have hstep : E.Streams (fs₀.setData f₀.ino (fs₀.data f₀.ino ++ x)) f.ino full := by
    rw [hi]
    exact hE.step (List.prefix_append ..)
  refine wp_flushBuffer rfl hm hstep ?_ fun f' hi' hm' => ⟨f', hi'.trans hi, hm', rfl, ?_⟩
  · rw [hi, FileSystem.data_setData_self]
    simpa only [List.append_assoc] using hpre
  · rw [hi, FileSystem.data_setData_self, FileSystem.setData_setData, List.append_assoc]

/-- Nothing to flush. -/
theorem flushBuffer_nil (h : st.writeBuf = []) : st.flushBuffer = pure (true, st) := if_pos h

/-! ## Opening a segment -/

/-- A change that leaves the represented store alone. -/
theorem Rep.congr {st' : Store} (h : Rep st fs L) (hpre : st'.basePrefix = st.basePrefix)
    (hcount : st'.segmentCount = st.segmentCount) (hvalid : st'.valid = st.valid)
    (hcool : 0 < st.count ∨ st'.compactInCooldown = false)
    (hbuf : st'.writeBuf = st.writeBuf) (hindex : st'.index = st.index)
    (hfile : st'.indexFile = st.indexFile) (hcur : st'.currentSegment = st.currentSegment) :
    Rep st' fs L where
  disk := by
    rw [hpre, Store.count, hcount]
    exact h.disk
  valid := hvalid.trans h.valid
  cool := by
    rw [Store.count, hcount]
    exact hcool
  buf := hbuf.trans h.buf
  shows := hindex ▸ h.shows
  indexFile := by
    rw [hfile, Store.indexName, hpre]
    exact h.indexFile
  cur := by
    rw [hcur, Store.count, hcount]
    exact h.cur

/-- The files after a segment has been opened represent the log with that segment. -/
theorem Disk.opened {pre : Path} {count s i : Nat} {fs' : FileSystem} (hd : Disk pre count fs L)
    (hs : s < spanOf count) (hf : Frame (Names pre (· = .segment s)) fs fs')
    (hi : fs'.dir (storePath pre (.segment s)) = some i)
    (hdata : fs'.data i = (fs.file (storePath pre (.segment s))).getD []) :
    Disk pre count fs' (L.opened s) where
  names := hd.names
  lt := hd.lt
  ok := Log.opened_ok hd.ok hs
  segs s' hs' := by
    by_cases he : s' = s
    · subst he
      rw [FileSystem.file_eq_some hi, hdata, hd.segs s' hs', Log.segs_opened_self]
      cases L.segs s' <;> rfl
    · rw [Log.segs_opened_ne he, ← hd.segs s' hs']
      exact hf.file (hd.names.not_mem (.segment s') (Nat.lt_trans hs' (spanOf_lt hd.lt)) (by simpa using he))
  index := (hf.file (hd.names.not_mem .index trivial (by simp))).trans hd.index
  journal := hd.journal.frame hd.names hf (by simp) (by simp)

/-- Opening a segment makes it the active one. -/
theorem wp_openSegment (hE : E.Fits st.basePrefix st.count) {s : Nat}
    (hr : Rep { st with currentSegment := s } fs L) {Q : Bool × Store → FileSystem → Prop}
    (hQ : ∀ f off fs', Rep { st with currentSegment := s } fs' (L.opened s) →
      Active { st with activeFile := some f, currentSegment := s, currentOffset := off } fs'
        (L.opened s) ((L.segs s).getD ⟨[], []⟩) →
      Q (true, { st with activeFile := some f, currentSegment := s, currentOffset := off }) fs') :
    E.wp (st.openSegment s) Q fs := by
  have hs : s < spanOf st.count := hr.cur
  have hs256 : s < 256 := Nat.lt_trans hs (spanOf_lt hr.disk.lt)
  have hn : NamesOk st.basePrefix := hr.disk.names
  rw [Store.openSegment]
  refine wp_closeFile hE.reads ?_
  refine wp_openKeep (a := .segment s) hs256 rfl rfl (hE.ok id id) fun fs1 i hf hi hdata hrely => ?_
  have hd : Disk st.basePrefix st.count fs1 (L.opened s) := hr.disk.opened hs hf hi hdata
  have hbytes : fs1.data i = ((L.segs s).getD ⟨[], []⟩).bytes := by
    obtain ⟨j, hj, hjd⟩ := hd.dir_segment Log.segs_opened_self
    obtain rfl : i = j := Option.some.inj (hi.symm.trans hj)
    exact hjd
  have hlen : ((L.segs s).getD ⟨[], []⟩).bytes.length < 2 ^ 24 := by
    have hfile := hr.disk.segs s hs
    cases hg : L.segs s with
    | none => decide
    | some g =>
      rw [hg] at hfile
      exact hE.small fs hrely s hs _ hfile
  dsimp only
  refine Env.wp_call (hE.inv id) (fun ha => hE.mild _ _ ha) fun _ => ?_
  refine Env.wp_call (hE.inv id) (fun ha => hE.mild _ _ ha) fun _ => ?_
  have hrep : Rep { st with currentSegment := s } fs1 (L.opened s) :=
    { hr with
      disk := hd
      indexFile := by
        obtain ⟨h, h1, h2, h3⟩ := hr.indexFile
        exact ⟨h, h1, h2, (hf.dir (hn.not_mem .index trivial (by simp))).trans h3⟩ }
  refine hQ _ _ fs1 hrep ⟨⟨_, rfl, rfl, hi⟩, Log.segs_opened_self, ?_⟩
  change wrap32 ((fs1.data i).length + 0) = _
  rw [hbytes, Nat.add_zero, wrap32_of_lt (Nat.lt_trans hlen (by decide))]

/-! ## Compacting and rotating

A compaction drops what is dead and moves what is live.  Before a put it is
`rotate_segment_if_needed` that may run one, when there is no next segment; after it
`compact_if_threshold` may. -/

/-- Eviction changes no file. -/
theorem Disk.narrow {pre : Path} {count : Nat} (h : Disk pre count fs L) {m : Live}
    (hm : ∀ k t, m k = some t → L.live k = some t) : Disk pre count fs (L.narrow m) :=
  { h with ok := Log.narrow_ok h.ok hm }

/-- It leaves the active file alone. -/
theorem Active.narrow {g : Segment} (h : Active st fs L g) {idx : Index} {d : Nat} {m : Live} :
    Active { st with index := idx, deadSinceCompact := d } fs (L.narrow m) g :=
  ⟨h.file, h.segment, h.offset⟩

/-- The store after the evictions of a compaction. -/
theorem Rep.narrow (hr : Rep st fs L) {idx : Index} {d : Nat} (hw : idx.Within st.index) :
    Rep { st with index := idx, deadSinceCompact := d } fs (L.narrow (L.live.within idx)) :=
  { hr with
    disk := hr.disk.narrow Live.within_le
    shows := hr.shows.within hw }

/-- `compact` takes a represented store to one that represents the compacted log, or fails and leaves
it alone but for evictions. -/
theorem Rep.wp_compact {c : Nat} (hr : Rep { st with currentSegment := c } fs L)
    (hE : E.Fits st.basePrefix st.count) {now : UInt32} {n d : Nat} {idx₁ : Index}
    (hprune : st.pruneIndexToMaxRecs = (n, { st with index := idx₁, deadSinceCompact := d }))
    (hw : idx₁.Within st.index) (hid : n = 0 → idx₁ = st.index) {rs : List Record}
    (hrs : Store.image { st with index := idx₁, deadSinceCompact := d }
      (L.narrow (L.live.within idx₁)) now st.count = rs)
    {Q : Bool × Store → FileSystem → Prop}
    (hQ : ∀ idx h es fs', Rep { st with
        index := idx
        indexFile := some h
        currentSegment := 0
        deadSinceCompact := 0 } fs' (L.compacted st.count rs es) →
      (∀ e ∈ es, ∃ t, scanned rs e.key = some t ∧ e.Leads t) →
      Q (true, { st with
        index := idx
        indexFile := some h
        currentSegment := 0
        deadSinceCompact := 0 }) fs')
    (hQf : ¬E.Faultless → ∀ idx d fs', idx.Within st.index →
      (st.policyMaxRecs = 0 → idx = st.index) →
      Frame (Names st.basePrefix StoreFile.scratch) fs fs' → Settled st.basePrefix fs' →
      Q (false, { st with index := idx, deadSinceCompact := d }) fs') :
    E.wp (st.compact now) Q fs := by
  subst hrs
  have hr₁ := @Rep.narrow { st with currentSegment := c } fs L hr idx₁ d hw
  refine @MicroStore.wp_compact E st (L.narrow (L.live.within idx₁)) fs now n d idx₁ hprune _ rfl
    hr₁.disk hr₁.shows hE.mild
    (fun c fs' hc _ => hE.inv hc) (fun c fs' h => hE.quiet c fs' fun hno _ hnone => ?_)
    (fun fs' hfile hrely => hE.small fs' hrely 0
      (Nat.lt_of_lt_of_le Nat.zero_lt_two (two_le_spanOf _)) _ hfile) Q
    (fun idx i es fs' hd hes hshows hi => hQ idx _ es fs' ?_ hes) ?_
  · have hfile := h.1 hno
    rw [FileSystem.file_eq_none.2 hnone] at hfile
    cases hfile
  · exact
      { disk := hd
        valid := hr.valid
        cool := hr.cool
        buf := hr.buf
        shows := hshows
        indexFile := ⟨_, rfl, rfl, hi⟩
        cur := Nat.lt_of_lt_of_le Nat.zero_lt_two (two_le_spanOf _) }
  · rintro hno st' fs' (rfl | rfl) hf hj
    · exact hQf hno _ _ fs' (fun _ _ h => h) (fun _ => rfl) hf hj
    · refine hQf hno _ _ fs' hw (fun hmax => hid ?_) hf hj
      rw [pruneIndexToMaxRecs_eq (.inl hmax), Prod.mk.injEq] at hprune
      exact hprune.1.symm

/-- A compacted log with segment 1 opened carries on the log. -/
theorem Rep.carries_compacted (hr : Rep st fs L) {now : UInt32} {idx : Index}
    (hidx : st.pruneIndexToMaxRecs.2.index = idx) (hw : idx.Within st.index) {st₁ : Store}
    (hst₁ : st₁.index = idx) (httl₁ : st₁.policyTtlSecs = st.policyTtlSecs) {rs : List Record}
    (hrs : st₁.image (L.narrow (L.live.within idx)) now st.count = rs)
    {es : List IndexEntry} (hes : ∀ e ∈ es, ∃ t, scanned rs e.key = some t ∧ e.Leads t)
    {fs' : FileSystem} (hd' : Disk st.basePrefix st.count fs' (L.compacted st.count rs es))
    {st' : Store} (hst' : SameConfig st st') (hcur : st'.currentSegment = 1) :
    Carries st L st' ((L.compacted st.count rs es).opened 1) ∧
      Keeps now st L ((L.compacted st.count rs es).opened 1) := by
  subst hrs
  have hd₁ : Disk st.basePrefix st.count fs (L.narrow (L.live.within idx)) :=
    hr.disk.narrow Live.within_le
  have hs₁ : st₁.index.Shows (L.narrow (L.live.within idx)).live := by
    rw [hst₁]
    exact hr.shows.within hw
  have hscan {k : Key} {t' : Located}
      (h : scanned (st₁.image (L.narrow (L.live.within idx)) now st.count) k = some t') :
      ∃ t, L.live k = some t ∧ t.record = t'.record := by
    obtain ⟨t, ht, he⟩ := scanned_image hd₁ hs₁ h
    exact ⟨t, Live.within_le k t (survivors_eq_some.1 ht).1, he⟩
  refine ⟨⟨hst', fun k t' h => hscan h, fun k t' h => ?_,
    fun _ => Log.opened_sound (Log.compacted_sound hes hd'.ok), fun ho => ?_,
    fun httl hmax ht => ?_⟩, ?_⟩
  · obtain ⟨t, ht, he⟩ := hscan h
    exact ⟨t, hr.disk.ok.sub k t ht, he⟩
  · have hc := @Log.Ordered.compacted L _ st₁ _ fs now es _ _ ho hd₁ hs₁ 0
    rw [hst'.count, hcur]
    exact Log.opened_ordered hc fun s' hs' => hc.above s' (Nat.zero_lt_of_lt hs')
  · have hlive : L.live.within idx = L.live := by
      rw [← hidx, pruneIndexToMaxRecs_eq (.inl hmax)]
      exact hr.shows.within_self
    rw [hlive] at hd₁ hs₁ hd' ⊢
    have hc := @Log.Tidy.compacted L _ st₁ _ fs now es _ ht hd₁ hs₁ (httl₁.trans httl) 0
    rw [hst'.count, hcur]
    exact ⟨Log.opened_tidy hc.1 fun s' hs' => hc.1.above s' (Nat.zero_lt_of_lt hs'), hc.2⟩
  · intro htwo hnil k t ht hexp hkeep
    rw [Store.indexFind, hidx] at hkeep
    have hexp₁ : st₁.expires now t.record = false := by
      rw [Store.expires, Store.isTtlExpired, httl₁]
      exact hexp
    have hnil₁ : st₁.survivors (L.narrow (L.live.within idx)) now st.count [] = none := by
      cases h : st₁.survivors (L.narrow (L.live.within idx)) now st.count [] with
      | none => rfl
      | some t => cases hnil.symm.trans (Live.within_le _ _ (survivors_eq_some.1 h).1)
    have hsurv : st₁.survivors (L.narrow (L.live.within idx)) now st.count k = some t := by
      refine survivors_eq_some.2 ⟨(if_pos hkeep).trans ht, hexp₁, ?_⟩
      obtain ⟨g, hg, -⟩ := hr.disk.ok.has k t (hr.disk.ok.sub k t ht)
      exact spanOf_eq htwo ▸ hr.disk.ok.segs_lt _ g hg
    have h := scanned_image_eq hd₁ hs₁ hnil₁ k
    rw [hsurv, Option.map_some, Option.map_eq_some_iff] at h
    exact h

/-- The compaction behind a put or a remove. -/
theorem wp_compactIfThreshold (hE : E.Fits st.basePrefix st.count) (hr : Ready st fs L)
    {now : UInt32} {Q : Store → FileSystem → Prop}
    (hQ : ∀ st' fs' L', Ready st' fs' L' → Carries st L st' L' → (E.Faultless → Keeps now st L L') →
      Q st' fs') :
    E.wp (st.compactIfThreshold now) Q fs := by
  rw [Store.compactIfThreshold]
  dsimp only
  split
  swap
  · exact Env.wp_ret (hQ st fs L hr (.refl st L) fun _ => .refl now st L)
  obtain ⟨n, idx₁, d, hprune, hw, hid⟩ := prune_spec st
  obtain ⟨rs, hrs⟩ : ∃ rs, Store.image { st with index := idx₁, deadSinceCompact := d }
      (L.narrow (L.live.within idx₁)) now st.count = rs := ⟨_, rfl⟩
  refine Prog.wp_bind.2 (Rep.wp_compact (c := st.currentSegment) hr.rep hE hprune hw hid hrs
    (fun idx h es fs1 hr1 hes => ?_) fun hno idx d fs1 hw hmax hf hj => ?_)
  · dsimp only
    rw [if_pos rfl]
    have hr1' : Rep { st with
        index := idx
        indexFile := some h
        currentSegment := 1
        deadSinceCompact := 0 } fs1 (L.compacted st.count rs es) :=
      { hr1 with cur := two_le_spanOf _ }
    refine Prog.wp_bind.2 (wp_openSegment (by exact hE) (by exact hr1') fun f off fs2 hr2 hact => ?_)
    have hc := @Rep.carries_compacted st fs L hr.rep now idx₁ (by rw [hprune]) hw { st with
        index := idx₁
        deadSinceCompact := d } rfl rfl rs hrs es hes fs1 hr1.disk { st with
        index := idx
        indexFile := some h
        activeFile := some f
        currentSegment := 1
        currentOffset := off
        deadSinceCompact := 0 } ⟨rfl, rfl, rfl, rfl⟩ rfl
    exact Env.wp_ret (hQ _ fs2 _ ⟨hr2.congr rfl rfl rfl hr.rep.cool rfl rfl rfl rfl, ⟨_, hact⟩, rfl⟩
      hc.1 fun _ => hc.2)
  · dsimp only
    rw [if_neg Bool.false_ne_true]
    obtain ⟨g, hg⟩ := hr.active
    refine Env.wp_ret (hQ _ fs1 _ ⟨(hr.rep.frame hf hj).narrow hw, ⟨g, (hg.frame hr.rep hf).narrow⟩,
      hr.indexTail⟩ (.narrow ⟨rfl, rfl, rfl, rfl⟩ rfl Live.within_le fun _ h _ => ?_) fun h => absurd h hno)
    rw [hmax h]
    exact hr.rep.shows.within_self

/-- The current segment has room for a value of this size. -/
def Store.HasRoom (st : Store) (writeSize : Nat) : Prop :=
  wrap32 (st.currentOffset + writeSize) + headerSize + commitSize < st.segmentSize.toNat

instance (st : Store) (writeSize : Nat) : Decidable (st.HasRoom writeSize) :=
  inferInstanceAs (Decidable (_ < _))

/-- `rotate_segment_if_needed` leaves a store whose active file is open on the current segment. -/
theorem wp_rotateSegmentIfNeeded (hE : E.Fits st.basePrefix st.count) (hr : Rep st fs L)
    (htail : L.indexTail = []) {clk : Clock} {writeSize : Nat} {Q : Bool × Store → FileSystem → Prop}
    (hstay : st.HasRoom writeSize → Q (true, st) fs)
    (hmove : ¬st.HasRoom writeSize → ∀ b st' fs' L', Ready st' fs' L' → Carries st L st' L' →
      (E.Faultless → Keeps clk.time st L L') → Q (b, st') fs') :
    E.wp (st.rotateSegmentIfNeeded clk writeSize) Q fs := by
  have hcur := hr.cur
  have hlt := hr.disk.lt
  have hspan := spanOf_lt hlt
  rw [Store.rotateSegmentIfNeeded]
  split
  · next hroom => exact Env.wp_ret (hstay hroom)
  next hroom =>
  rw [flushBuffer_nil hr.buf]
  refine Env.wp_pure_bind (wp_closeFile hE.reads ?_)
  dsimp only
  have hnext : wrap32 (st.currentSegment + 1) = st.currentSegment + 1 :=
    wrap32_of_lt (by omega)
  have hlast (idx : Index) (d : Nat) (hpos : 0 < st.count) : Store.lastSegment { st with
      activeFile := none
      currentSegment := st.currentSegment + 1
      index := idx
      deadSinceCompact := d } = st.count - 1 := by
    change (st.count + (2 ^ 32 - 1)) % 2 ^ 32 = _
    omega
  -- the last segment goes on
  have stay (idx : Index) (d : Nat) (clk' : UInt32) (cool : Bool) (fs' : FileSystem)
      (hr' : Rep { st with index := idx, deadSinceCompact := d } fs' (L.narrow (L.live.within idx)))
      (hmax : st.policyMaxRecs = 0 → idx = st.index)
      (hfull : ¬st.currentSegment + 1 < st.count) (hpos : 0 < st.count)
      (hkeep : E.Faultless → idx = st.index) :
      E.wp (Store.openSegment { st with
          activeFile := none
          index := idx
          deadSinceCompact := d
          currentSegment := st.count - 1
          compactInCooldown := cool
          compactCooldownStartMs := clk' } (st.count - 1) >>= fun x => pure (false, x.2)) Q fs' := by
    have hcur' : st.count - 1 < spanOf st.count := by
      have := le_spanOf st.count
      omega
    have hr' : Rep { st with index := idx, deadSinceCompact := d, currentSegment := st.count - 1 } fs'
        (L.narrow (L.live.within idx)) := { hr' with cur := hcur' }
    refine Prog.wp_bind.2 (wp_openSegment (by exact hE)
      (by exact hr'.congr rfl rfl rfl (.inl hpos) rfl rfl rfl rfl) fun f off fs2 hr2 hact => ?_)
    have hc : Carries st L { st with
        activeFile := some f
        index := idx
        deadSinceCompact := d
        currentSegment := st.count - 1
        currentOffset := off
        compactInCooldown := cool
        compactCooldownStartMs := clk' } ((L.narrow (L.live.within idx)).opened (st.count - 1)) := by
      refine (Carries.narrow (.refl st) rfl Live.within_le fun _ h _ => ?_).trans
        (.opened ⟨rfl, rfl, rfl, rfl⟩ rfl fun ht s' hs' => ht.above s' ?_)
      · rw [hmax h]
        exact hr.shows.within_self
      · have htwo := spanOf_eq ht.two_le
        change spanOf st.count = st.count at htwo
        change st.currentSegment < s'
        omega
    refine Env.wp_ret (hmove hroom _ _ fs2 _ ⟨hr2.congr rfl rfl rfl (.inl hpos) rfl rfl rfl rfl,
      ⟨_, hact⟩, htail⟩ hc fun hno htwo hnil k t ht _ _ => ⟨t, ?_, rfl⟩)
    change L.live.within idx k = some t
    rw [hkeep hno, hr.shows.within_self]
    exact ht
  rw [hnext]
  split
  · next hroom' =>
    have hroom' : st.currentSegment + 1 < st.count := hroom'
    have hr' : Rep { st with currentSegment := st.currentSegment + 1 } fs L :=
      { hr with cur := Nat.lt_of_lt_of_le hroom' (le_spanOf _) }
    refine Prog.wp_bind.2 (wp_openSegment (by exact hE)
      (by exact hr'.congr rfl rfl rfl hr.cool rfl rfl rfl rfl) fun f off fs2 hr2 hact => ?_)
    exact Env.wp_ret (hmove hroom _ _ fs2 _ ⟨hr2.congr rfl rfl rfl hr.cool rfl rfl rfl rfl, ⟨_, hact⟩,
      htail⟩ (.opened ⟨rfl, rfl, rfl, rfl⟩ rfl fun ht s' hs' => ht.above s' (Nat.lt_of_succ_lt hs'))
      fun _ _ _ _ t ht _ _ => ⟨t, ht, rfl⟩)
  next hfull =>
  have hfull : ¬st.currentSegment + 1 < st.count := hfull
  split
  · next hcool =>
    have hpos : 0 < st.count := hr.cool.resolve_right fun h => by
      cases h.symm.trans hcool.1
    rw [hlast _ _ hpos]
    refine stay st.index st.deadSinceCompact st.compactCooldownStartMs st.compactInCooldown fs ?_
      (fun _ => rfl) hfull hpos fun _ => rfl
    rw [hr.shows.within_self]
    exact hr
  obtain ⟨n, idx₁, d, hprune, hw, hid⟩ := prune_spec { st with
    activeFile := none, currentSegment := st.currentSegment + 1 }
  obtain ⟨rs, hrs⟩ : ∃ rs, Store.image { st with
      activeFile := none
      currentSegment := st.currentSegment + 1
      index := idx₁
      deadSinceCompact := d } (L.narrow (L.live.within idx₁)) clk.time st.count = rs := ⟨_, rfl⟩
  refine Prog.wp_bind.2 (Rep.wp_compact (c := st.currentSegment)
    (by exact hr.congr rfl rfl rfl hr.cool rfl rfl rfl rfl) (by exact hE) hprune hw hid hrs
    (fun idx h es fs1 hr1 hes => ?_) fun hno idx d fs1 hw hmax hf hj => ?_)
  · dsimp only
    rw [if_neg (by decide)]
    have hr1' : Rep { st with
        activeFile := none
        index := idx
        indexFile := some h
        currentSegment := 1
        deadSinceCompact := 0 } fs1 (L.compacted st.count rs es) :=
      { hr1 with cur := two_le_spanOf _ }
    refine Prog.wp_bind.2 (wp_openSegment (by exact hE)
      (by exact hr1'.congr rfl rfl rfl (.inr rfl) rfl rfl rfl rfl) fun f off fs2 hr2 hact => ?_)
    have hidx : st.pruneIndexToMaxRecs.2.index = idx₁ := by
      rw [← @prune_congr st { st with
        activeFile := none, currentSegment := st.currentSegment + 1 } rfl rfl rfl rfl, hprune]
    have hc := @Rep.carries_compacted st fs L hr clk.time idx₁ hidx hw { st with
        activeFile := none
        currentSegment := st.currentSegment + 1
        index := idx₁
        deadSinceCompact := d } rfl rfl rs hrs es hes fs1 hr1.disk { st with
        activeFile := some f
        index := idx
        indexFile := some h
        currentSegment := 1
        currentOffset := off
        compactInCooldown := false
        deadSinceCompact := 0 } ⟨rfl, rfl, rfl, rfl⟩ rfl
    exact Env.wp_ret (hmove hroom _ _ fs2 _ ⟨hr2.congr rfl rfl rfl (.inr rfl) rfl rfl rfl rfl,
      ⟨_, hact⟩, rfl⟩ hc.1 fun _ => hc.2)
  · have hpos := hE.pos.resolve_right hno
    dsimp only
    rw [if_pos (by decide), hlast _ _ hpos]
    exact stay idx d clk.millisAfter true fs1 ((hr.frame hf hj).narrow hw) hmax hfull hpos
      fun h => absurd h hno

/-- The segment is rotated before a put, and the store is ready again. -/
theorem wp_rotate_ready (hE : E.Fits st.basePrefix st.count) (hr : Ready st fs L) {clk : Clock}
    {writeSize : Nat} : E.wp (st.rotateSegmentIfNeeded clk writeSize)
      (fun x fs' => ∃ L', Ready x.2 fs' L' ∧ Carries st L x.2 L' ∧
        (E.Faultless → Keeps clk.time st L L')) fs :=
  wp_rotateSegmentIfNeeded hE hr.rep hr.indexTail
    (fun _ => ⟨L, hr, .refl st L, fun _ => .refl clk.time st L⟩)
    fun _ _ _ _ L' hr' hc hk => ⟨L', hr', hc, hk⟩

/-! ## Records and their entries

A put writes the record, then its entry.  Between the two the record is there and the index file does
not know of it. -/

/-- The record `put` appends. -/
def putRecord (key data : Buf) (ttl ts : UInt32) (priority : UInt8)
    (hkey : key.bytes.length ≤ maxKeyLen) (hdata : data.bytes.length ≤ maxValueLen) : Record where
  hdr := putHeader key data ttl ts priority
  key := key.bytes
  value := data.bytes
  magic_eq := rfl
  keyLen_eq := Nat.mod_eq_of_lt (Nat.lt_of_le_of_lt hkey (by decide))
  length_eq := Nat.mod_eq_of_lt (Nat.lt_of_le_of_lt hdata (by decide))
  key_le := hkey
  value_le := hdata

/-- The record `remove` appends. -/
def removeRecord (key : Buf) (junkTtl : UInt32) (junkPriority : UInt8)
    (hkey : key.bytes.length ≤ maxKeyLen) : Record where
  hdr := removeHeader key junkTtl junkPriority
  key := key.bytes
  value := []
  magic_eq := rfl
  keyLen_eq := Nat.mod_eq_of_lt (Nat.lt_of_le_of_lt hkey (by decide))
  length_eq := rfl
  key_le := hkey
  value_le := Nat.zero_le _

/-- The files after a record and its entry have been appended represent the log with that record. -/
theorem Disk.append {pre : Path} {count s : Nat} {g : Segment} {r : Record} {fs' : FileSystem}
    (hd : Disk pre count fs L) (hg : L.segs s = some g) (hok : (L.append s r).Ok count)
    (hf : Frame (Names pre fun a => a = .segment s ∨ a = .index) fs fs')
    (hseg : fs'.file (storePath pre (.segment s)) = some (g.bytes ++ r.bytes))
    (hindex : fs'.file (storePath pre .index)
      = some (entriesBytes L.entries ++ (L.place s r).entry.bytes)) :
    Disk pre count fs' (L.append s r) where
  names := hd.names
  lt := hd.lt
  ok := hok
  segs s' hs' := by
    by_cases he : s' = s
    · subst he
      rw [hseg, Log.segs_append_self hg, Option.map_some, Segment.bytes_append]
    · rw [Log.segs_append_ne he, ← hd.segs s' hs']
      exact hf.file (hd.names.not_mem (.segment s') (Nat.lt_trans hs' (spanOf_lt hd.lt)) (by simpa using he))
  index := by
    rw [hindex]
    simp [Log.append, entriesBytes]
  journal := hd.journal.frame hd.names hf (by simp) (by simp)

/-- `persist_index_entry` appends an entry to the index file. -/
theorem wp_persistIndexEntry (hE : E.Fits st.basePrefix st.count) (hn : NamesOk st.basePrefix)
    {h : Handle} (hh : st.indexFile = some h) (hm : h.mode = .append)
    (hdir : fs.dir st.indexName = some h.ino) {e : IndexEntry} {key : Key} {seg off ts ttl : Nat}
    {priority : UInt8} (hfields : (entryFields key seg off ts ttl priority).flatten = e.bytes)
    (hinv : ∀ (f : Handle) (x bs : Bytes), f.ino = h.ino → f.mode = .append →
      x ++ bs <+: e.bytes → E.inv (.write f bs) (fs.setData h.ino (fs.data h.ino ++ x)))
    {Q : Bool × Store → FileSystem → Prop}
    (hQ : ∀ h' : Handle, h'.ino = h.ino → h'.mode = .append →
      E.rely (fs.setData h.ino (fs.data h.ino ++ e.bytes)) →
      Q (true, { st with indexFile := some h' })
        (fs.setData h.ino (fs.data h.ino ++ e.bytes))) :
    E.wp (st.persistIndexEntry key seg off ts ttl priority) Q fs := by
  rw [Store.persistIndexEntry, hh]
  dsimp only
  refine Prog.wp_bind.2 (wp_writeAll_ok (.inl (by rw [hm]; rfl)) ?_ ?_ fun h' hi' hm' _ => ?_)
  · intro f x bs hi hm' hx
    rw [hfields] at hx
    exact hinv f x bs hi (hm'.trans hm) hx
  · intro f x bs hi ha
    refine not_scratch_index hn ?_ (hE.mild _ _ ha)
    rw [hi]
    exact hdir
  · rw [hfields]
    refine Env.wp_call (hE.inv id) (fun ha => hE.mild _ _ ha) fun hrely => ?_
    exact Env.wp_ret (hQ h' hi' (hm'.trans hm) hrely)

/-- The log with a record that has been appended, as far as the index still has its keys. -/
def Log.stored (L : Log) (s : Nat) (r : Record) (idx : Index) : Log :=
  (L.append s r).narrow ((L.append s r).live.within idx)

/-- The step appends a record, which leads to the index `idx`, and then carries the log on. -/
def Stored (E : Env) (now : UInt32) (st : Store) (L : Log) (r : Record) (idx : Index) (st' : Store)
    (L' : Log) : Prop :=
  ∃ st₁ : Store, Carries st₁ (L.stored st.currentSegment r idx) st' L' ∧
    (E.Faultless → Keeps now st₁ (L.stored st.currentSegment r idx) L') ∧ SameConfig st st₁ ∧
    st₁.currentSegment = st.currentSegment ∧ st₁.order = st.order ∧ st₁.index = idx

/-- What is demanded at the writes of a record to the active file. -/
def Env.AtRecord (E : Env) (st : Store) (L : Log) (r : Record) : Prop :=
  ∀ st₁ fs₁ L₁ g f x bs, Ready st₁ fs₁ L₁ → Carries st L st₁ L₁ → Active st₁ fs₁ L₁ g →
    fs₁.dir (st₁.segmentName st₁.currentSegment) = some f.ino →
    f.mode = .readAppend → x ++ bs <+: r.bytes →
    E.inv (.write f bs) (fs₁.setData f.ino (fs₁.data f.ino ++ x))

/-- What is demanded at the writes of its entry to the index file. -/
def Env.AtEntry (E : Env) (st : Store) (L : Log) (r : Record) : Prop :=
  ∀ st₁ fs₁ L₁ g i f x bs, Ready st₁ fs₁ L₁ → Carries st L st₁ L₁ → Active st₁ fs₁ L₁ g →
    fs₁.dir (st₁.segmentName st₁.currentSegment) = some i →
    fs₁.dir st₁.indexName = some f.ino → f.mode = .append →
    x ++ bs <+: (L₁.place st₁.currentSegment r).entry.bytes →
    E.inv (.write f bs) ((fs₁.setData i (fs₁.data i ++ r.bytes)).setData f.ino
      (fs₁.data f.ino ++ x))

/-- With the record in the active file and the index up to date, persisting the entry and advancing the
offset makes the store represent the log with that record. -/
theorem wp_persistRecord (hE : E.Fits st.basePrefix st.count) (hr : Ready st fs L) {g : Segment}
    (hact : Active st fs L g) {f : Handle}
    (hdir : fs.dir (st.segmentName st.currentSegment) = some f.ino) (hm : f.mode = .readAppend)
    {r : Record} {idx idx₀ : Index} {d : Nat}
    (hidx : idx₀.Shows (L.append st.currentSegment r).live) (hw : idx.Within idx₀) {key : Key}
    {seg off ts ttl : Nat} {priority : UInt8}
    (hfields : (entryFields key seg off ts ttl priority).flatten
      = (L.place st.currentSegment r).entry.bytes)
    (hinv : E.AtEntry st L r) {Q : Bool × Store → FileSystem → Prop}
    (hQ : ∀ h fs', st.currentOffset + r.size < 2 ^ 32 →
      (L.Sound → (L.stored st.currentSegment r idx).Sound) →
      Ready { st with
        activeFile := some f
        indexFile := some h
        writeBuf := []
        index := idx
        deadSinceCompact := d
        currentOffset := st.currentOffset + r.size } fs' (L.stored st.currentSegment r idx) →
      Q (true, { st with
        activeFile := some f
        indexFile := some h
        writeBuf := []
        index := idx
        deadSinceCompact := d }) fs') :
    E.wp (Store.persistIndexEntry { st with
        activeFile := some f
        writeBuf := []
        index := idx
        deadSinceCompact := d } key seg off ts ttl priority) Q
      (fs.setData f.ino (fs.data f.ino ++ r.bytes)) := by
  have hn := hr.rep.disk.names
  have hcur := hr.rep.cur
  have hcur256 : st.currentSegment < 256 := Nat.lt_trans hcur (spanOf_lt hr.rep.disk.lt)
  obtain ⟨h, hh, hhm, hhd⟩ := hr.rep.indexFile
  have hne : h.ino ≠ f.ino := by
    intro he
    exact hn.ne (a := .index) trivial (b := .segment st.currentSegment) hcur256 (by simp)
      (fs.inj (he ▸ hhd) hdir)
  have hdata : (fs.setData f.ino (fs.data f.ino ++ r.bytes)).data h.ino = fs.data h.ino :=
    if_neg hne
  have hbytes : fs.data f.ino = g.bytes := by
    obtain ⟨i, hi, hd⟩ := hr.rep.disk.dir_segment hact.segment
    obtain rfl : f.ino = i := Option.some.inj (hdir.symm.trans hi)
    exact hd
  have hindex : fs.data h.ino = entriesBytes L.entries := by
    obtain ⟨j, hj, hd⟩ := hr.rep.disk.dir_index
    obtain rfl : h.ino = j := Option.some.inj (hhd.symm.trans hj)
    rw [hd, hr.indexTail, List.append_nil]
  refine wp_persistIndexEntry (by exact hE) (by exact hn) (by exact hh) hhm (by exact hhd) hfields
    ?_ fun h' hi' hm' hrely => ?_
  · intro f' x bs hi' hm' hx
    rw [hdata]
    exact hi' ▸ hinv st fs L g f.ino f' x bs hr (.refl st L) hact hdir (hi' ▸ hhd) hm' hx
  rw [hdata] at hrely ⊢
  generalize hfs' : (fs.setData f.ino (fs.data f.ino ++ r.bytes)).setData h.ino
    (fs.data h.ino ++ (L.place st.currentSegment r).entry.bytes) = fs' at hrely ⊢
  have hseg' : fs'.file (st.segmentName st.currentSegment) = some (g.bytes ++ r.bytes) := by
    have hd' : fs'.dir (st.segmentName st.currentSegment) = some f.ino := hfs' ▸ hdir
    rw [FileSystem.file_eq_some hd', ← hfs', FileSystem.data_setData, if_neg (Ne.symm hne),
      FileSystem.data_setData_self, hbytes]
  have hindex' : fs'.file st.indexName
      = some (entriesBytes L.entries ++ (L.place st.currentSegment r).entry.bytes) := by
    have hd' : fs'.dir st.indexName = some h.ino := hfs' ▸ hhd
    rw [FileSystem.file_eq_some hd', ← hfs', FileSystem.data_setData_self, hindex]
  have hlen := hE.small fs' hrely _ hcur _ hseg'
  rw [List.length_append, Record.length_bytes] at hlen
  have hlen' : g.bytes.length < 2 ^ 24 := by omega
  have hok := @Log.append_ok L _ _ g r hact.segment hcur hr.rep.disk.ok hr.rep.disk.lt hlen'
  have hf : Frame (Names st.basePrefix fun a => a = .segment st.currentSegment ∨ a = .index)
      fs fs' := by
    rw [← hfs']
    exact (Frame.setData hdir (mem_names hcur256 (.inl rfl))).trans
      (Frame.setData hhd (mem_names (by exact trivial) (.inr rfl)))
  have hoff := hact.offset
  refine hQ h' fs' (by omega)
    (fun hs => Log.append_sound hact.segment hcur hs hr.rep.disk.lt hlen')
    ⟨?_, ⟨g.append r, ⟨⟨f, rfl, hm, hfs' ▸ hdir⟩, ?_, ?_⟩⟩, rfl⟩
  · exact
      { disk := (hr.rep.disk.append hact.segment hok hf hseg' hindex').narrow Live.within_le
        valid := hr.rep.valid
        cool := hr.rep.cool
        buf := rfl
        shows := hidx.within hw
        indexFile := ⟨h', rfl, hm', hi'.symm ▸ hfs' ▸ hhd⟩
        cur := hcur }
  · exact Log.segs_append_self hact.segment
  · change st.currentOffset + r.size = _
    rw [hoff, Segment.bytes_append, List.length_append, Record.length_bytes]

namespace Stored

variable {now : UInt32} {r : Record} {idx : Index} {st' : Store} {L' : Log}

theorem config (h : Stored E now st L r idx st' L') : SameConfig st st' := by
  obtain ⟨st₁, hcarry, -, hc, -⟩ := h
  exact hc.trans hcarry.toSameConfig

/-- A live key after the step is that of the record, or it was live before. -/
theorem live (h : Stored E now st L r idx st' L') {k : Key} {t' : Located}
    (ht' : L'.live k = some t') : (k = r.key ∧ t'.record = r ∧ ¬r.deletes) ∨
      (k ≠ r.key ∧ ∃ t, L.live k = some t ∧ t.record = t'.record) := by
  obtain ⟨st₁, hcarry, -⟩ := h
  obtain ⟨t, ht, he⟩ := hcarry.live k t' ht'
  have ht : (L.live.apply (L.place st.currentSegment r)) k = some t := Live.within_le k t ht
  by_cases hk : k = r.key
  · subst hk
    have hself : L.live.apply (L.place st.currentSegment r) r.key
        = if r.deletes then none else some (L.place st.currentSegment r) := L.live.apply_self _
    rw [hself] at ht
    split at ht
    · cases ht
    · cases ht
      exact .inl ⟨rfl, he.symm, ‹_›⟩
  · exact .inr ⟨hk, t, (Live.apply_ne (t := L.place st.currentSegment r) hk).symm.trans ht, he⟩

/-- So is a key the index file leads to. -/
theorem saved (h : Stored E now st L r idx st' L') {k : Key} {t' : Located}
    (ht' : L'.saved k = some t') : (k = r.key ∧ t'.record = r ∧ ¬r.deletes) ∨
      (k ≠ r.key ∧ ∃ t, L.saved k = some t ∧ t.record = t'.record) := by
  obtain ⟨st₁, hcarry, -⟩ := h
  obtain ⟨t, ht, he⟩ := hcarry.saved k t' ht'
  have ht : (L.saved.apply (L.place st.currentSegment r)) k = some t := ht
  by_cases hk : k = r.key
  · subst hk
    have hself : L.saved.apply (L.place st.currentSegment r) r.key
        = if r.deletes then none else some (L.place st.currentSegment r) := L.saved.apply_self _
    rw [hself] at ht
    split at ht
    · cases ht
    · cases ht
      exact .inl ⟨rfl, he.symm, ‹_›⟩
  · exact .inr ⟨hk, t, (Live.apply_ne (t := L.place st.currentSegment r) hk).symm.trans ht, he⟩

/-- An ordered log stays ordered if the key of the record is not empty. -/
theorem ordered (h : Stored E now st L r idx st' L') (hr : Ready st fs L)
    (ho : L.Ordered st.count st.currentSegment) (hkey : r.key ≠ []) :
    L'.Ordered st'.count st'.currentSegment := by
  obtain ⟨st₁, hcarry, -, hc, hcur, -⟩ := h
  obtain ⟨g, hact⟩ := hr.active
  have hcur' := hr.rep.cur
  rw [spanOf_eq ho.two_le] at hcur'
  have happ := Log.append_ordered hact.segment ho hcur' hkey
  refine hcarry.ordered ?_
  rw [hc.count, hcur]
  exact happ.narrow

/-- In a tidy log without policies the step sets the key of the record, or drops it. -/
theorem tidy (h : Stored E now st L r idx st' L') (hr : Ready st fs L) (httl : st.policyTtlSecs = 0)
    (hmax : st.policyMaxRecs = 0) (ht : L.Tidy st.count st.currentSegment)
    (hidx : idx.Shows (L.append st.currentSegment r).live) (hkey : r.key ≠ [])
    (hrttl : ¬r.deletes → r.hdr.ttl = 0) :
    L'.Tidy st'.count st'.currentSegment ∧
      L'.view = Function.update L.view r.key (if r.deletes then none else some r.value) := by
  obtain ⟨st₁, hcarry, -, hc, hcur, -⟩ := h
  obtain ⟨g, hact⟩ := hr.active
  have htwo := spanOf_eq ht.two_le
  have hcur' := hr.rep.cur
  rw [htwo] at hcur'
  have hstored : L.stored st.currentSegment r idx = L.append st.currentSegment r := by
    rw [Log.stored, hidx.within_self]
    rfl
  rw [hstored] at hcarry
  have happ := Log.append_tidy hact.segment ht hcur' hkey hrttl
  obtain ⟨ht', hv⟩ := hcarry.tidy (hc.ttl.trans httl) (hc.maxRecs.trans hmax)
    (by rw [hc.count, hcur]; exact happ)
  exact ⟨ht', by rw [hv, Log.view_append]⟩

end Stored

/-- The demand survives the steps before the record. -/
theorem Env.AtRecord.carry {r : Record} {st' : Store} {L' : Log} (h : E.AtRecord st L r)
    (hc : Carries st L st' L') : E.AtRecord st' L' r :=
  fun st₁ fs₁ L₁ g f x bs hr hc' => h st₁ fs₁ L₁ g f x bs hr (hc.trans hc')

/-- The same of the entry. -/
theorem Env.AtEntry.carry {r : Record} {st' : Store} {L' : Log} (h : E.AtEntry st L r)
    (hc : Carries st L st' L') : E.AtEntry st' L' r :=
  fun st₁ fs₁ L₁ g i f x bs hr hc' => h st₁ fs₁ L₁ g i f x bs hr (hc.trans hc')

/-- A record can be streamed to the active file. -/
theorem Ready.streams (hE : E.Fits st.basePrefix st.count) (hr : Ready st fs L) {g : Segment}
    (hact : Active st fs L g) {i : Nat}
    (hdir : fs.dir (st.segmentName st.currentSegment) = some i) {r : Record}
    (hinv : E.AtRecord st L r) : E.Streams fs i (fs.data i ++ r.bytes) where
  write f x bs hi hm hx hbs := by
    have hn := hr.rep.disk.names
    have hcur256 : st.currentSegment < 256 := Nat.lt_trans hr.rep.cur (spanOf_lt hr.rep.disk.lt)
    obtain ⟨y, rfl⟩ := hx
    rw [List.append_assoc] at hbs
    subst hi
    refine ⟨hinv st fs L g f y bs hr (.refl st L) hact hdir hm
      ((List.prefix_append_right_inj _).1 hbs), fun ha => ?_⟩
    rcases hE.mild _ _ ha with h | ⟨h, -⟩
    · exact hn.ne (a := .journal) trivial (b := .segment st.currentSegment) hcur256 (by simp)
        (fs.inj h hdir)
    · exact hn.ne (a := .tmp) trivial (b := .segment st.currentSegment) hcur256 (by simp)
        (fs.inj h hdir)
  flush f x _ _ := hE.ok id id

/-! ## Putting and removing

The parts above in the order of the source.  Which record is written and which index results are the
only differences between the two operations. -/

/-- Only the counter of dead records changes. -/
theorem countDead_eq (st : Store) (key : Key) :
    ∃ d, st.countDead key = { st with deadSinceCompact := d } := by
  rw [Store.countDead]
  split
  · exact ⟨_, rfl⟩
  · exact ⟨st.deadSinceCompact, rfl⟩

/-- The entry that is written for a put. -/
theorem entryFields_place {t : Located} (hd : ¬t.record.deletes) :
    (entryFields t.record.key t.seg t.off t.record.hdr.timestamp.toNat t.record.hdr.ttl.toNat
      t.record.hdr.priority).flatten = t.entry.bytes := by
  have h4 (n : Nat) : toLE 4 (UInt32.ofNat n).toNat = toLE 4 n := toLE_mod 4 n
  rw [← entryFields_flatten]
  simp only [Located.entry, if_neg hd, entryFields, h4]

/-- The entry that is written for a tombstone. -/
theorem entryFields_deleted {t : Located} (hd : t.record.deletes) :
    (entryFields t.record.key deletedSeg 0 0 0 0).flatten = t.entry.bytes := by
  rw [← entryFields_flatten]
  simp only [Located.entry, if_pos hd]
  rfl

/-- What `put` makes of the index, once the record is written. -/
def Store.putIndex (st : Store) (r : Record) : Index :=
  (st.indexInsert r.key st.currentSegment st.currentOffset r.hdr.timestamp r.hdr.ttl.toNat
    r.hdr.priority).pruneIndexToMaxRecs.2.index

/-- The index after a put, when there is no limit. -/
theorem Ready.shows_putIndex (hr : Ready st fs L) {g : Segment} (hact : Active st fs L g)
    {r : Record} (hd : ¬r.deletes) (hmax : st.policyMaxRecs = 0) :
    (st.putIndex r).Shows (L.append st.currentSegment r).live := by
  have hplace : L.place st.currentSegment r = ⟨st.currentSegment, st.currentOffset, r⟩ := by
    rw [Log.place, hact.segment, hact.offset]
    rfl
  have hprune := @pruneIndexToMaxRecs_eq (st.indexInsert r.key st.currentSegment st.currentOffset
    r.hdr.timestamp r.hdr.ttl.toNat r.hdr.priority) (.inl hmax)
  rw [Store.putIndex, hprune, Log.live_append, hplace]
  exact hr.rep.shows.insert (t := ⟨st.currentSegment, st.currentOffset, r⟩) hd

/-- **`put` stores its record**, once the segment has been rotated if need be. -/
theorem Store.wp_put (hE : E.Fits st.basePrefix st.count) (hvalid : st.valid = true) {clk : Clock}
    {key data : Buf} {ttl ts : UInt32} {priority : UInt8} (hkey : key.bytes.length ≤ maxKeyLen)
    (hdata : data.bytes.length ≤ maxValueLen) {r : Record}
    (hrdef : putRecord key data ttl ts priority hkey hdata = r) {R : Store → FileSystem → Log → Prop}
    (hrotate : E.wp (st.rotateSegmentIfNeeded clk data.bytes.length)
      (fun x fs' => ∃ L', Ready x.2 fs' L' ∧ Carries st L x.2 L' ∧ R x.2 fs' L') fs)
    (hrecord : E.AtRecord st L r) (hentry : E.AtEntry st L r)
    {Q : Bool × Store → FileSystem → Prop}
    (hQ : ∀ st₁ fs₁ L₁ st' fs' L', Ready st₁ fs₁ L₁ → Carries st L st₁ L₁ → R st₁ fs₁ L₁ →
      Ready st' fs' L' → (L₁.Sound → L'.Sound) →
      Stored E clk.time st₁ L₁ r (st₁.putIndex r) st' L' → Q (true, st') fs') :
    E.wp (st.put clk key data ttl ts priority) Q fs := by
  rw [Store.put, if_neg (by rw [hvalid]; decide), if_neg (Nat.not_lt.2 hkey),
    if_neg (Nat.not_lt.2 hdata)]
  refine Env.wp_seq hrotate ?_
  rintro ⟨b, st1⟩ fs1 ⟨L1, hr1, hc1, hR⟩
  have hhdr : putHeader key data ttl ts priority = r.hdr := by rw [← hrdef]; rfl
  have hrkey : key.bytes = r.key := by rw [← hrdef]; rfl
  have hrval : data.bytes = r.value := by rw [← hrdef]; rfl
  have hdel : ¬r.deletes := by
    rw [← hrdef]
    change ¬(0 : UInt8) &&& flagDelete ≠ 0
    decide
  obtain ⟨g, hact⟩ := hr1.active
  obtain ⟨f, hf, hfm, hdir⟩ := hact.file
  have hE1 : E.Fits st1.basePrefix st1.count := by
    rw [hc1.pre, hc1.count]
    exact hE
  have hstream := hr1.streams hE1 hact hdir (hrecord.carry hc1)
  dsimp only
  rw [hhdr, hrkey, hrval]
  -- the four parts of the record go through the buffer
  refine Env.wp_seq (wp_append_streamed (.start hf hfm hr1.rep.buf) hstream ?_) fun st2 fs2 h2 => ?_
  · exact (List.prefix_append_right_inj _).2 ⟨r.key ++ (r.value ++ commitBytes), by
      simp only [Record.bytes, List.nil_append]⟩
  refine Env.wp_seq (wp_append_streamed h2 hstream ?_) fun st3 fs3 h3 => ?_
  · exact (List.prefix_append_right_inj _).2 ⟨r.value ++ commitBytes, by
      simp only [Record.bytes, List.append_assoc, List.nil_append]⟩
  refine Env.wp_seq (wp_append_streamed h3 hstream ?_) fun st4 fs4 h4 => ?_
  · exact (List.prefix_append_right_inj _).2 ⟨commitBytes, by
      simp only [Record.bytes, List.append_assoc, List.nil_append]⟩
  refine Env.wp_seq (wp_append_streamed h4 hstream ?_) fun st5 fs5 h5 => ?_
  · exact (List.prefix_append_right_inj _).2 ⟨[], by
      simp only [Record.bytes, List.append_assoc, List.nil_append, List.append_nil]⟩
  have hw : [] ++ r.hdr.encode ++ r.key ++ r.value ++ commitBytes = r.bytes := by
    simp only [Record.bytes, List.append_assoc, List.nil_append]
  rw [hw] at h5
  refine Env.wp_seq (wp_flush_streamed h5 hstream (List.prefix_refl _)) ?_
  rintro _ _ ⟨f6, hi6, hm6, rfl, rfl⟩
  dsimp only
  rw [if_neg (by decide)]
  obtain ⟨d, hd⟩ := countDead_eq { st1 with activeFile := some f6, writeBuf := [] } r.key
  rw [hd]
  have hts : ts = r.hdr.timestamp := by rw [← hrdef]; rfl
  have httl : ttl = r.hdr.ttl := by rw [← hrdef]; rfl
  have hpri : priority = r.hdr.priority := by rw [← hrdef]; rfl
  rw [hts, httl, hpri]
  -- the entry goes into the index, and others may be evicted
  generalize hst7 : Store.indexInsert { st1 with
      activeFile := some f6
      writeBuf := []
      deadSinceCompact := d } r.key st1.currentSegment st1.currentOffset r.hdr.timestamp
    r.hdr.ttl.toNat r.hdr.priority = st7
  rw [prune_if_exceeds]
  have hidx7 : st7.pruneIndexToMaxRecs.2.index = st1.putIndex r := by
    rw [← hst7]
    exact prune_congr rfl rfl rfl rfl
  obtain ⟨n, idx, d', hprune, hwithin, -⟩ := prune_spec st7
  rw [hprune] at hidx7 ⊢
  subst hst7
  dsimp only at hidx7
  subst hidx7
  rw [← hi6] at hdir ⊢
  have hplace : L1.place st1.currentSegment r = ⟨st1.currentSegment, st1.currentOffset, r⟩ := by
    rw [Log.place, hact.segment, hact.offset]
    rfl
  refine Prog.wp_bind.2 (wp_persistRecord hE1 hr1 hact hdir hm6 (r := r) (d := d') ?_ hwithin ?_
    (hentry.carry hc1) fun h fs' hoff hsound hr' => ?_)
  · change Index.Shows (AList.insert r.key (indexValue st1.currentSegment st1.currentOffset
      r.hdr.timestamp r.hdr.ttl.toNat r.hdr.priority) st1.index) (L1.append st1.currentSegment r).live
    rw [Log.live_append, hplace]
    exact hr1.rep.shows.insert (t := ⟨st1.currentSegment, st1.currentOffset, r⟩) hdel
  · rw [hplace]
    exact entryFields_place (t := ⟨st1.currentSegment, st1.currentOffset, r⟩) hdel
  · dsimp only
    have hsize : wrap32 (st1.currentOffset + headerSize + r.key.length + r.value.length
        + commitSize) = st1.currentOffset + r.size := by
      rw [Record.size] at hoff ⊢
      rw [wrap32_of_lt (by omega)]
      omega
    change E.wp (Store.compactIfThreshold { st1 with
        activeFile := some f6
        indexFile := some h
        writeBuf := []
        index := st1.putIndex r
        deadSinceCompact := d'
        currentOffset := wrap32 (st1.currentOffset + headerSize + r.key.length + r.value.length
          + commitSize) } clk.time >>= _) Q fs'
    rw [hsize]
    refine Prog.wp_bind.2 (wp_compactIfThreshold (by exact hE1) (by exact hr')
      fun st' fs'' L' hr'' hc hkeep => ?_)
    exact Env.wp_ret (hQ st1 fs1 L1 st' fs'' L' hr1 hc1 hR hr'' (hc.sound ∘ hsound)
      ⟨_, hc, hkeep, ⟨rfl, rfl, rfl, rfl⟩, rfl, rfl, rfl⟩)

/-- **`remove` drops its key**, and writes to the current segment whatever its size. -/
theorem Store.wp_remove (hE : E.Fits st.basePrefix st.count) (hr : Ready st fs L) {clk : Clock}
    {key : Buf} {junkTtl : UInt32} {junkPriority : UInt8} (hkey : key.bytes.length ≤ maxKeyLen)
    {r : Record} (hrdef : removeRecord key junkTtl junkPriority hkey = r)
    (hrecord : E.AtRecord st L r) (hentry : E.AtEntry st L r)
    {Q : Bool × Store → FileSystem → Prop}
    (hQ : ∀ st' fs' L', Ready st' fs' L' → (L.Sound → L'.Sound) →
      Stored E clk.time st L r (st.index.erase r.key) st' L' → Q (true, st') fs') :
    E.wp (st.remove clk key junkTtl junkPriority) Q fs := by
  rw [Store.remove, if_neg (by rw [hr.rep.valid]; decide), if_neg (Nat.not_lt.2 hkey)]
  have hhdr : removeHeader key junkTtl junkPriority = r.hdr := by rw [← hrdef]; rfl
  have hrkey : key.bytes = r.key := by rw [← hrdef]; rfl
  have hrval : r.value = [] := by rw [← hrdef]; rfl
  have hdel : r.deletes := by
    rw [← hrdef]
    change flagDelete &&& flagDelete ≠ 0
    decide
  obtain ⟨g, hact⟩ := hr.active
  obtain ⟨f, hf, hfm, hdir⟩ := hact.file
  have hstream := hr.streams hE hact hdir hrecord
  dsimp only
  rw [hhdr, hrkey]
  -- the three parts of the record go through the buffer
  refine Env.wp_seq (wp_append_streamed (.start hf hfm hr.rep.buf) hstream ?_) fun st2 fs2 h2 => ?_
  · exact (List.prefix_append_right_inj _).2 ⟨r.key ++ (r.value ++ commitBytes), by
      simp only [Record.bytes, List.nil_append]⟩
  refine Env.wp_seq (wp_append_streamed h2 hstream ?_) fun st3 fs3 h3 => ?_
  · exact (List.prefix_append_right_inj _).2 ⟨r.value ++ commitBytes, by
      simp only [Record.bytes, List.append_assoc, List.nil_append]⟩
  have hw : [] ++ r.hdr.encode ++ r.key ++ commitBytes = r.bytes := by
    simp only [Record.bytes, hrval, List.append_assoc, List.nil_append]
  refine Env.wp_seq (wp_append_streamed h3 hstream ?_) fun st4 fs4 h4 => ?_
  · exact (List.prefix_append_right_inj _).2 ⟨[], by rw [hw, List.append_nil]⟩
  rw [hw] at h4
  refine Env.wp_seq (wp_flush_streamed h4 hstream (List.prefix_refl _)) ?_
  rintro _ _ ⟨f5, hi5, hm5, rfl, rfl⟩
  dsimp only
  obtain ⟨d, hd⟩ := countDead_eq { st with activeFile := some f5, writeBuf := [] } r.key
  rw [hd]
  rw [← hi5] at hdir ⊢
  have hplace : L.place st.currentSegment r = ⟨st.currentSegment, st.currentOffset, r⟩ := by
    rw [Log.place, hact.segment, hact.offset]
    rfl
  have hshows : Index.Shows (AList.erase r.key st.index) (L.append st.currentSegment r).live := by
    rw [Log.live_append, hplace]
    exact hr.rep.shows.erase (t := ⟨st.currentSegment, st.currentOffset, r⟩) hdel
  refine Prog.wp_bind.2 (wp_persistRecord hE hr hact hdir hm5 (r := r) (d := d) hshows
    (fun _ _ h => h) ?_ hentry fun h fs' hoff hsound hr' => ?_)
  · rw [hplace]
    exact entryFields_deleted (t := ⟨st.currentSegment, st.currentOffset, r⟩) hdel
  · dsimp only
    have hsize : wrap32 (st.currentOffset + headerSize + r.key.length + commitSize)
        = st.currentOffset + r.size := by
      rw [Record.size, hrval, List.length_nil] at hoff ⊢
      rw [wrap32_of_lt (by omega)]
      omega
    rw [hsize]
    refine Prog.wp_bind.2 (wp_compactIfThreshold (by exact hE) (by exact hr')
      fun st' fs'' L' hr'' hc hkeep => ?_)
    exact Env.wp_ret (hQ st' fs'' L' hr'' (hc.sound ∘ hsound)
      ⟨_, hc, hkeep, ⟨rfl, rfl, rfl, rfl⟩, rfl, rfl, rfl⟩)

end specs

end MicroStore
