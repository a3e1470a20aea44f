import MicroStore.Evicting

/-!
# What a compaction keeps

`compact` is to keep the records that are neither evicted nor expired.  It does so as long as each of
them has a key that is not empty and lies in one of the segments the store was opened for
(`compact_keeps_iff`): a scan stops at an empty key, and the store goes on in segment 1 even when there
is to be only one.

## What is here

* `Store.entryView`, `Store.indexView` — what an index entry leads to: the key, the value and the other
  facts of the record at its place.
* `Store.kept` — the entries that a compaction is to keep: those that eviction and expiry leave.
* `Store.CompactKeeps` — after the compaction the index, the index file and a scan of the segments all
  lead to what the kept entries led to, and nothing else.
* `Store.Survivable` — the condition on the state before: no kept entry has an empty key or lies in a
  segment beyond the count.
* `Placed.compactKeeps_iff` — the condition is exact in every state that satisfies the invariant of
  runs, and `compact_keeps_iff` in every state a run leads to.
* `compact_loses_empty_key` — the empty key, which `put` accepts and a compaction loses.
-/

set_option autoImplicit false

namespace MicroStore

/-- What the record at an index entry says, with the timestamp, the TTL and the priority of the entry. -/
def Store.entryView (st : Store) (fs : FileSystem) (v : IndexValue) :
    Option (Value × UInt32 × Nat × UInt8) :=
  (st.fetch fs v).map fun val => (val, v.timestamp, v.ttl.toNat, v.priority)

/-- The map an index denotes. -/
def Store.indexView (st : Store) (idx : Index) (fs : FileSystem) (k : Key) :
    Option (Value × UInt32 × Nat × UInt8) :=
  (idx.lookup k).bind (st.entryView fs)

/-- The index entries a compaction is about: neither evicted by it nor expired. -/
def Store.kept (st : Store) (now : UInt32) (k : Key) : Option IndexValue :=
  (st.pruneIndexToMaxRecs.2.indexFind k).filter fun v =>
    !st.isTtlExpired now v.timestamp v.ttl.toNat

/-- After `compact` has returned true, the index, the index file and a scan of segment 0 denote the map
from before, without the entries that were evicted or have expired. -/
def Store.CompactKeeps (st : Store) (now : UInt32) (fs : FileSystem) : Prop :=
  let s := Prog.exec posix (st.compact now) fs
  let loaded := (Prog.exec posix (Store.loadIndex { s.1.2 with index := ∅ }) s.2).1.2.index
  let scan := (Prog.exec posix (s.1.2.rebuildLoop 1 0 ∅) s.2).1
  s.1.1 = true → ∀ k,
    s.1.2.indexView s.1.2.index s.2 k = (st.kept now k).bind (st.entryView fs) ∧
    s.1.2.indexView loaded s.2 k = (st.kept now k).bind (st.entryView fs) ∧
    s.1.2.indexView scan s.2 k = (st.kept now k).bind (st.entryView fs)

/-- What a record says, as far as the index keeps it. -/
def Record.facts (r : Record) : Value × UInt32 × Nat × UInt8 :=
  (r.value, r.hdr.timestamp, (UInt24.ofNat r.hdr.ttl.toNat).toNat, r.hdr.priority)

section surviving

variable {su : Setup} {b : Bool} {m : Key → Option Record} {st : Store} {fs : FileSystem} {L : Log}

/-- What an index entry says is what its record says. -/
theorem Rep.entryView_eq (hr : Rep st fs L) {k : Key} {t : Located} (ht : L.live k = some t) :
    st.entryView fs t.indexValue = some t.record.facts := by
  rw [Store.entryView, hr.fetch_eq ht]
  rfl

/-- What the index leads to is the map of the log. -/
theorem Rep.indexView_eq (hr : Rep st fs L) {idx : Index} (hs : idx.Shows L.live) (k : Key) :
    st.indexView idx fs k = (L.live k).map fun t => t.record.facts := by
  rw [Store.indexView, hs k]
  cases ht : L.live k with
  | none => rfl
  | some t => exact hr.entryView_eq ht

/-- The records a compaction is about. -/
def Store.keptRecords (st : Store) (L : Log) (now : UInt32) (k : Key) : Option Located :=
  (L.live.within st.pruneIndexToMaxRecs.2.index k).filter fun t => !st.expires now t.record

/-- What is to be kept is what survives. -/
theorem Rep.kept_eq (hr : Rep st fs L) {now : UInt32}
    (hw : st.pruneIndexToMaxRecs.2.index.Within st.index) (k : Key) :
    st.kept now k = (st.keptRecords L now k).map Located.indexValue := by
  have hs := hr.shows.within hw k
  rw [Store.kept, Store.indexFind, hs, Store.keptRecords]
  cases L.live.within st.pruneIndexToMaxRecs.2.index k with
  | none => rfl
  | some t =>
    have hexp : st.isTtlExpired now t.indexValue.timestamp t.indexValue.ttl.toNat
      = st.expires now t.record := rfl
    simp only [Option.map_some, Option.filter_some, hexp]
    cases st.expires now t.record <;> rfl

/-- The map before the compaction, as far as it is to be kept. -/
theorem Rep.keptView_eq (hr : Rep st fs L) {now : UInt32}
    (hw : st.pruneIndexToMaxRecs.2.index.Within st.index) (k : Key) :
    (st.kept now k).bind (st.entryView fs)
      = (st.keptRecords L now k).map fun t => t.record.facts := by
  rw [hr.kept_eq hw]
  cases ht : st.keptRecords L now k with
  | none => rfl
  | some t =>
    have hlive := Live.within_le k t (Option.filter_eq_some_iff.1 ht).1
    exact hr.entryView_eq hlive

/-- Every record that is to be kept has a key that is not empty and lies in a segment of the store. -/
def Store.Survivable (st : Store) (now : UInt32) : Prop :=
  ∀ k v, st.kept now k = some v → k ≠ [] ∧ v.segment.toNat < st.count

/-- **What a compaction keeps**, for a store that represents a log. -/
theorem Placed.compactKeeps_iff (h : Placed su b m st fs L) {now : UInt32}
    (hsmall : ∀ x ∈ Prog.trace posix (st.compact now) fs, su.Small x.2)
    (hsmall' : su.Small (Prog.exec posix (st.compact now) fs).2) :
    st.CompactKeeps now fs ↔ st.Survivable now := by
  have hE := h.fits
  have hr := h.rep
  obtain ⟨n, idx, d, hprune, hw, hid⟩ := prune_spec st
  have hidx : st.pruneIndexToMaxRecs.2.index = idx := by rw [hprune]
  obtain ⟨rs, hrs⟩ : ∃ rs, Store.image { st with index := idx, deadSinceCompact := d }
      (L.narrow (L.live.within idx)) now st.count = rs := ⟨_, rfl⟩
  have hd₁ : Disk st.basePrefix st.count fs (L.narrow (L.live.within idx)) :=
    hr.disk.narrow Live.within_le
  have hs₁ : idx.Shows (L.narrow (L.live.within idx)).live := hr.shows.within hw
  -- what the compaction leaves
  obtain ⟨hok, es, hr', hbase, hcount⟩ : (Prog.exec posix (st.compact now) fs).1.1 = true ∧
      ∃ es, Rep (Prog.exec posix (st.compact now) fs).1.2 (Prog.exec posix (st.compact now) fs).2
          (L.compacted st.count rs es) ∧
        (Prog.exec posix (st.compact now) fs).1.2.basePrefix = st.basePrefix ∧
        (Prog.exec posix (st.compact now) fs).1.2.count = st.count := by
    refine @Env.exec_of_wp su.env _ _ (fun (x : Bool × Store) fs' => x.1 = true ∧
      ∃ es, Rep x.2 fs' (L.compacted st.count rs es) ∧ x.2.basePrefix = st.basePrefix ∧
        x.2.count = st.count) fs ?_ hsmall
    refine Rep.wp_compact (c := st.currentSegment) hr hE hprune hw hid hrs
      (fun idx' x es fs1 hr1 _ => ⟨rfl, es, hr1, rfl, rfl⟩) fun hno => absurd (fun _ _ h => h) hno
  rw [Store.CompactKeeps]
  dsimp only
  rw [hok]
  generalize (Prog.exec posix (st.compact now) fs).1.2 = st' at hr' hbase hcount ⊢
  generalize (Prog.exec posix (st.compact now) fs).2 = fs' at hr' hsmall' ⊢
  have hsaved : (L.compacted st.count rs es).live = scanned rs := rfl
  have hlen : ∀ s g, (L.compacted st.count rs es).segs s = some g → g.bytes.length < 2 ^ 24 := by
    refine hr'.disk.files.length_lt ?_
    rw [hbase, hcount, h.pre, Store.count, h.segmentCount]
    exact hsmall'
  -- what was to be kept has been copied if it lies in a segment of the store
  have hsurv (k : Key) (t : Located) :
      Store.survivors { st with index := idx, deadSinceCompact := d }
        (L.narrow (L.live.within idx)) now st.count k = some t ↔
        st.keptRecords L now k = some t ∧ t.seg < st.count := by
    rw [survivors_eq_some, Store.keptRecords, hidx, Option.filter_eq_some_iff, and_assoc]
    refine and_congr_right fun _ => and_congr_left fun _ => ?_
    rw [Bool.not_eq_true']
    exact Iff.rfl
  have hseg {k : Key} {t : Located} (ht : st.keptRecords L now k = some t) :
      t.indexValue.segment.toNat = t.seg :=
    hr.disk.indexValue_segment (Live.within_le k t (Option.filter_eq_some_iff.1 ht).1)
  constructor
  · intro hkeeps k v hv
    rw [hr.kept_eq (hidx ▸ hw), Option.map_eq_some_iff] at hv
    obtain ⟨t, ht, rfl⟩ := hv
    have hview := (hkeeps rfl k).1
    rw [hr'.indexView_eq hr'.shows, hr.keptView_eq (hidx ▸ hw), ht, hsaved, Option.map_some,
      Option.map_eq_some_iff] at hview
    obtain ⟨t', ht', -⟩ := hview
    refine ⟨(scanned_eq_some ht').2.2.1, ?_⟩
    rw [← hrs] at ht'
    obtain ⟨t₂, ht₂, -⟩ := scanned_image (by exact hd₁) (by exact hs₁) ht'
    obtain ⟨h₂, hlt⟩ := (hsurv k t₂).1 ht₂
    obtain rfl : t = t₂ := Option.some.inj (ht.symm.trans h₂)
    rwa [hseg ht]
  · intro hsv _ k
    have hkept (k : Key) (t : Located) (ht : st.keptRecords L now k = some t) :
        k ≠ [] ∧ t.seg < st.count := by
      have hv := hsv k t.indexValue (by rw [hr.kept_eq (hidx ▸ hw), ht]; rfl)
      rwa [hseg ht] at hv
    have hnil : Store.survivors { st with index := idx, deadSinceCompact := d }
        (L.narrow (L.live.within idx)) now st.count [] = none := by
      cases hs : Store.survivors { st with index := idx, deadSinceCompact := d }
          (L.narrow (L.live.within idx)) now st.count [] with
      | none => rfl
      | some t => exact absurd rfl (hkept [] t ((hsurv [] t).1 hs).1).1
    have hcopied : (scanned rs k).map Located.record = (st.keptRecords L now k).map Located.record := by
      rw [← hrs, scanned_image_eq (by exact hd₁) (by exact hs₁) hnil]
      congr 1
      cases ht : st.keptRecords L now k with
      | none =>
        cases hs : Store.survivors { st with index := idx, deadSinceCompact := d }
            (L.narrow (L.live.within idx)) now st.count k with
        | none => rfl
        | some t => cases ht.symm.trans ((hsurv k t).1 hs).1
      | some t => exact (hsurv k t).2 ⟨ht, (hkept k t ht).2⟩
    have hfacts : (scanned rs k).map (fun t => t.record.facts)
        = (st.kept now k).bind (st.entryView fs) := by
      rw [hr.keptView_eq (hidx ▸ hw)]
      have := congrArg (Option.map Record.facts) hcopied
      rwa [Option.map_map, Option.map_map] at this
    have hview (idx' : Index) (hs : idx'.Shows (scanned rs)) :
        st'.indexView idx' fs' k = (st.kept now k).bind (st.entryView fs) :=
      (hr'.indexView_eq hs k).trans hfacts
    refine ⟨hview _ hr'.shows, hview _ ?_, hview _ ?_⟩
    · refine @Env.plain_exec _ _ (fun (x : Bool × Store) _ => x.2.index.Shows (scanned rs)) fs' ?_
      exact wp_loadIndex (Env.plain_reads fs') (by exact hr'.disk) (fun _ => hlen) readEntry_nil
        hr'.disk.ok.entries
    · have hkeys : ∀ r ∈ rs, r.key ≠ [] := by
        intro r hrmem
        rw [← hrs] at hrmem
        obtain ⟨k', t, ht, rfl⟩ := (mem_image (by exact hd₁) (by exact hs₁)).1 hrmem
        have hsaved' := hd₁.ok.sub k' t (survivors_eq_some.1 ht).1
        rw [hd₁.ok.key k' t hsaved']
        exact (hkept k' t ((hsurv k' t).1 ht).1).1
      refine @Env.plain_exec _ _ (fun (x : Index) _ => x.Shows (scanned rs)) fs' ?_
      refine wp_rebuildLoop (Env.plain_reads fs') hr'.disk.files (fun _ => hlen) (c := 1) ⟨?_, ?_⟩
        (Nat.zero_add 1) (Nat.le_of_lt (two_le_spanOf _)) Index.Shows.empty fun idx' hs => ?_
      · intro s hs g hg
        obtain rfl : s = 0 := by omega
        cases hg
        exact scanFrame_nil
      · intro s hs g hg
        obtain rfl : s = 0 := by omega
        cases hg
        exact hkeys
      · rw [scanned_eq hkeys]
        exact hs

end surviving

/-- **A compaction keeps exactly what it is to keep** if and only if each of the records that are
neither evicted nor expired has a key that is not empty and lies in a segment of the store. -/
theorem compact_keeps_iff (su : Setup) (order : IterationOrder) (fs : FileSystem)
    (hstart : su.Starts order fs) (ops : List Operation) (now : UInt32)
    (hsmall : su.SmallRun ops (Prog.exec posix (su.start order) fs))
    (hord : Operation.Orderly false ops)
    (hcompact : ∀ x ∈ Prog.trace posix ((su.reach order fs ops).1.compact now)
      (su.reach order fs ops).2, su.Small x.2)
    (hend : su.Small (Prog.exec posix ((su.reach order fs ops).1.compact now)
      (su.reach order fs ops).2).2) :
    (su.reach order fs ops).1.CompactKeeps now (su.reach order fs ops).2 ↔
      (su.reach order fs ops).1.Survivable now := by
  obtain ⟨L, h, -⟩ := hstart.reach hsmall hord
  exact h.compactKeeps_iff hcompact hend

theorem compact_keeps_iff_sample :
    let s := sampleSetup.reach .recent .empty sampleOperations
    s.1.CompactKeeps 0 s.2 ↔ s.1.Survivable 0 :=
  compact_keeps_iff sampleSetup .recent .empty sampleSetup_starts sampleOperations 0
    (by decide +kernel) (by decide) (by decide +kernel) (by decide +kernel)

/-- A compaction loses the record of the empty key. -/
theorem compact_loses_empty_key :
    let s := sampleSetup.reach .recent .empty [.put ⟨0, 0, 0⟩ (.at []) (.at [1]) 0 0 0]
    ¬s.1.CompactKeeps 0 s.2 := by
  intro s h
  have hkeeps := (h (by decide +kernel) []).1
  have hafter : (Prog.exec posix (s.1.compact 0) s.2).1.2.indexView
      (Prog.exec posix (s.1.compact 0) s.2).1.2.index (Prog.exec posix (s.1.compact 0) s.2).2 []
        = none := by
    decide +kernel
  have hbefore : (s.1.kept 0 []).bind (s.1.entryView s.2) = some ([1], 0, 0, 0) := by decide +kernel
  cases hafter.symm.trans (hkeeps.trans hbefore)

end MicroStore
