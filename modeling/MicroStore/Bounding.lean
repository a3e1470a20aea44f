import MicroStore.Capping
import MicroStore.Reopening
import MicroStore.Sparing
import MicroStore.Standing

/-!
# Segment numbers

Compaction, rebuilding and clearing loop over the segments below `segment_count`, so a record beyond is
out of their reach.  With two segments or more, no operation puts one there, whatever the files hold and
whatever fails: segment numbers are assigned by rotation, which stays below the count, and by a
compaction, after which the store goes on in segment 1.  Only `init` takes segment numbers from
elsewhere, namely from the index file, which may come from a store with more segments.

## What is here

* `Store.Inside` — the segments of the index entries and the current segment are below the count.
* `Store.Within` — what one operation does to segment numbers, under any faults (`harsh`): with two
  segments or more and none of them beyond the count, it leaves none beyond the count.  There is one lemma
  for each function of the store, from `within_flushBuffer` to `within_clear`.
* `Store.LoadsInside` and `Store.Boots` — what `init` has to find, read off the entries of the index file.
* `Move` — one step of a run over several objects, several openings and several counts
  (`Move.perform`, `Move.run`), and `Move.Meets`, the condition on a step.
* `Move.keeps_inside`, one step, and `Move.run_inside`, a whole run.

That no record is lost in such a run needs more, and is in `Maintaining.lean`.
-/

set_option autoImplicit false

namespace MicroStore

theorem erase_within (key : Key) (idx : Index) : Index.Within (idx.erase key) idx := by
  intro k e he
  by_cases hk : k = key
  · rw [hk, AList.lookup_erase] at he
    cases he
  · rwa [AList.lookup_erase_ne hk] at he

namespace Store

/-- The segments of the index entries are below the count. -/
def IndexInside (st : Store) : Prop := ∀ k e, st.indexFind k = some e → e.segment.toNat < st.count

/-- The segments of the index entries and the current segment are below the count. -/
def Inside (st : Store) : Prop := st.IndexInside ∧ st.currentSegment < st.count

/-- A step that makes no index entry at or beyond the count, if there are two segments. -/
structure Indexed (st st' : Store) : Prop where
  /-- The object stays as valid as it was. -/
  valid : st'.valid = st.valid
  /-- The count stays. -/
  segmentCount : st'.segmentCount = st.segmentCount
  /-- An entry of the new index is an old one, or leads below the count. -/
  index : 2 ≤ st.count → ∀ k e, st'.indexFind k = some e →
    st.indexFind k = some e ∨ e.segment.toNat < st.count

/-- A step that leaves no segment number at or beyond the count, if there are two segments. -/
structure Within (st st' : Store) : Prop where
  /-- The object stays as valid as it was. -/
  valid : st'.valid = st.valid
  /-- The count stays. -/
  segmentCount : st'.segmentCount = st.segmentCount
  /-- What was inside stays inside. -/
  inside : 2 ≤ st.count → st.Inside → st'.Inside

namespace Within

variable {st st' st'' : Store}

theorem count (h : st.Within st') : st'.count = st.count := by
  rw [Store.count, h.segmentCount, Store.count]

theorem trans (h : st.Within st') (h' : st'.Within st'') : st.Within st'' where
  valid := h'.valid.trans h.valid
  segmentCount := h'.segmentCount.trans h.segmentCount
  inside htwo hin := h'.inside (h.count ▸ htwo) (h.inside htwo hin)

/-- A step that may change the index and the current segment. -/
theorem of_indexed (h : st.Indexed st')
    (hcur : 2 ≤ st.count → st'.currentSegment = st.currentSegment ∨ st'.currentSegment < st.count) :
    st.Within st' where
  valid := h.valid
  segmentCount := h.segmentCount
  inside htwo hin := by
    have hc : st'.count = st.count := congrArg UInt8.toNat h.segmentCount
    rw [Store.Inside, Store.IndexInside, hc]
    refine ⟨fun k e he => (h.index htwo k e he).elim (hin.1 k e) id, ?_⟩
    exact (hcur htwo).elim (fun he => he ▸ hin.2) id

theorem of_index (hvalid : st'.valid = st.valid) (hcount : st'.segmentCount = st.segmentCount)
    (hindex : ∀ k e, st'.indexFind k = some e → st.indexFind k = some e)
    (hcur : 2 ≤ st.count → st'.currentSegment = st.currentSegment ∨ st'.currentSegment < st.count) :
    st.Within st' :=
  of_indexed ⟨hvalid, hcount, fun _ k e he => .inl (hindex k e he)⟩ hcur

theorem of_eq (hvalid : st'.valid = st.valid) (hcount : st'.segmentCount = st.segmentCount)
    (hindex : st'.index = st.index) (hcur : st'.currentSegment = st.currentSegment) :
    st.Within st' :=
  of_index hvalid hcount (fun k e he => by rwa [Store.indexFind, hindex] at he) fun _ => .inl hcur

theorem refl (st : Store) : st.Within st := of_eq rfl rfl rfl rfl

/-- The index may lose entries. -/
theorem shrink {idx : Index} (h : idx.Within st.index) : st.Within { st with index := idx } :=
  of_index rfl rfl h fun _ => .inl rfl

theorem prune (st : Store) : st.Within st.pruneIndexToMaxRecs.2 := by
  obtain ⟨n, idx, d, hprune, hw, -⟩ := prune_spec st
  rw [hprune]
  exact of_index rfl rfl hw fun _ => .inl rfl

theorem indexRemove (st : Store) (key : Key) : st.Within (st.indexRemove key) :=
  shrink (erase_within key st.index)

theorem countDead (st : Store) (key : Key) : st.Within (st.countDead key) := by
  rw [Store.countDead]
  split
  · exact of_eq rfl rfl rfl rfl
  · exact refl st

end Within

end Store

/-! ## The operations -/

section operations

open Env Store

variable {st st₀ : Store} {fs : FileSystem} {β : Type}

theorem within_flushBuffer (h : st₀.Within st) :
    harsh.wp st.flushBuffer (fun r _ => st₀.Within r.2) fs := by
  rw [Store.flushBuffer]
  split
  · exact h
  · split
    · exact h.trans (.of_eq rfl rfl rfl rfl)
    · exact harsh_ignore fun _ _ => harsh_ignore fun _ _ => h.trans (.of_eq rfl rfl rfl rfl)

theorem within_appendBuffer (h : st₀.Within st) (data : Bytes) :
    harsh.wp (st.appendBuffer data) (fun st' _ => st₀.Within st') fs := by
  rw [Store.appendBuffer]
  generalize data.length = fuel
  induction fuel generalizing st data fs with
  | zero => exact h
  | succ fuel ih =>
    rw [Store.appendLoop]
    split
    · exact h
    dsimp only
    generalize (if data.length < writeBufferSize - st.writeBuf.length then data.length
      else writeBufferSize - st.writeBuf.length) = n
    have hbuf : st₀.Within { st with writeBuf := st.writeBuf ++ data.take n } :=
      h.trans (.of_eq rfl rfl rfl rfl)
    split
    · exact wp_seq (within_flushBuffer hbuf) fun r fs' hr => ih hr _
    · exact wp_pure_bind (ih hbuf _)

theorem within_persistIndexEntry (h : st₀.Within st) {key : Key} {seg off ts ttl : Nat}
    {priority : UInt8} :
    harsh.wp (st.persistIndexEntry key seg off ts ttl priority) (fun r _ => st₀.Within r.2) fs := by
  rw [Store.persistIndexEntry]
  split
  · exact h
  · exact harsh_ignore fun _ _ => harsh_ignore fun _ _ => h.trans (.of_eq rfl rfl rfl rfl)

/-- A segment below the count is opened, or the store stays in its segment. -/
theorem within_openSegment (h : st₀.Within st) {id : Nat} (hid : 2 ≤ st.count → id < st.count) :
    harsh.wp (st.openSegment id) (fun r _ => st₀.Within r.2) fs := by
  rw [Store.openSegment]
  refine harsh_ignore fun _ _ => harsh_ignore fun f _ => ?_
  cases f with
  | none => exact h.trans (.of_eq rfl rfl rfl rfl)
  | some f =>
    refine harsh_ignore fun _ _ => harsh_ignore fun off _ => ?_
    exact h.trans (.of_index rfl rfl (fun _ _ he => he) fun htwo => .inr (hid htwo))

/-- A scan makes entries of the segment it scans. -/
theorem harsh_scanLoop_segs {onDelete : Key → Index → Index}
    (hdel : ∀ key idx, (onDelete key idx).Within idx) {seg fuel : Nat} {f : Handle} {off : Nat}
    {idx : Index} : harsh.wp (scanLoop onDelete seg fuel f off idx) (fun r _ =>
      ∀ k e, r.2.lookup k = some e → idx.lookup k = some e ∨ e.segment = UInt8.ofNat seg) fs := by
  induction fuel generalizing f off idx with
  | zero => exact fun k e he => .inl he
  | succ fuel ih =>
    have stop (f' : Handle) : harsh.wp (pure (f', idx)) (fun r _ =>
        ∀ k e, r.2.lookup k = some e → idx.lookup k = some e ∨ e.segment = UInt8.ofNat seg) fs :=
      fun k e he => .inl he
    rw [scanLoop]
    refine harsh_read fun bs f1 _ _ _ => ?_
    dsimp only
    split
    · exact stop f1
    split
    · exact stop f1
    refine harsh_read fun key f2 _ _ _ => ?_
    dsimp only
    split
    · exact stop f2
    refine harsh_call (by exact id) (harsh_read fun c f3 _ _ _ => ?_)
    dsimp only
    split
    · exact stop f3
    split
    · exact stop f3
    refine Prog.wp_mono ih fun r _ hr k e he => ?_
    rcases hr k e he with hidx | hseg
    · split at hidx
      · exact .inl (hdel _ _ k e hidx)
      · by_cases hk : k = key
        · rw [hk, AList.lookup_insert, Option.some.injEq] at hidx
          exact .inr (by rw [← hidx]; rfl)
        · rw [AList.lookup_insert_ne hk] at hidx
          exact .inl hidx
    · exact .inr hseg

/-- What a compaction does to the index and the current segment. -/
structure Compacts (st st' : Store) : Prop extends st.Indexed st' where
  /-- The current segment is what it was, or segment zero. -/
  cur : st'.currentSegment = st.currentSegment ∨ st'.currentSegment = 0

theorem Compacts.refl (st : Store) : Compacts st st :=
  ⟨⟨rfl, rfl, fun _ _ _ he => .inl he⟩, .inl rfl⟩

theorem Compacts.within {st' : Store} (h : Compacts st st') : st.Within st' :=
  .of_indexed h.toIndexed fun htwo => h.cur.imp_right fun he => by omega

theorem compacts_finalizeCompaction :
    harsh.wp st.finalizeCompaction (fun st' _ => Compacts st st') fs := by
  rw [Store.finalizeCompaction]
  refine harsh_ignore fun _ _ => harsh_ignore fun renamed _ => ?_
  cases renamed with
  | false => exact harsh_ignore fun _ _ => .refl st
  | true =>
    rw [if_neg (by decide)]
    -- all entries are of segment 0
    have written (idx : Index) (hidx : ∀ k e, idx.lookup k = some e → e.segment = UInt8.ofNat 0)
        (fs' : FileSystem) : harsh.wp (Store.rewriteIndex { st with index := idx })
          (fun st' _ => Compacts st st') fs' := by
      refine Prog.wp_of_always (fun _ _ => trivial) (Prog.always_mono (always_rewriteIndex _) ?_)
      rintro _ ⟨file, rfl⟩
      refine ⟨⟨rfl, rfl, fun htwo k e he => .inr ?_⟩, .inr rfl⟩
      rw [hidx k e he]
      exact Nat.lt_of_lt_of_le Nat.zero_lt_two htwo
    dsimp only
    refine harsh_openRead fun f _ => ?_
    cases f with
    | none => exact wp_pure_bind (written ∅ (fun _ _ he => by cases he) _)
    | some f =>
      refine wp_seq (harsh_scanLoop_segs fun _ _ _ _ he => he) fun r fs' hr => ?_
      refine harsh_call (by exact id) (wp_pure_bind (written r.2 (fun k e he => ?_) _))
      exact (hr k e he).resolve_left (by rintro ⟨⟩)

theorem compacts_compact {now : UInt32} :
    harsh.wp (st.compact now) (fun r _ => Compacts st r.2) fs := by
  rw [Store.compact_eq]
  refine harsh_ignore fun _ _ => harsh_ignore fun f fs' => ?_
  cases f with
  | none => exact harsh_ignore fun _ _ => .refl st
  | some outf =>
    obtain ⟨n, idx, d, hprune, hw, -⟩ := prune_spec st
    dsimp only
    rw [hprune, Store.compactInto]
    have pruned : Compacts st { st with index := idx, deadSinceCompact := d } :=
      ⟨⟨rfl, rfl, fun _ k e he => .inl (hw k e he)⟩, .inl rfl⟩
    refine harsh_ignore fun r _ => harsh_ignore fun _ _ => harsh_ignore fun _ _ => ?_
    obtain ⟨writeOk, committedSegs, outf'⟩ := r
    cases writeOk with
    | false =>
      rw [if_pos (by rfl)]
      split
      · exact harsh_ignore fun _ _ => harsh_ignore fun _ _ => pruned
      · exact pruned
    | true =>
      rw [if_neg (by exact Bool.false_ne_true)]
      refine harsh_ignore fun _ _ => wp_seq compacts_finalizeCompaction fun st' _ h => ?_
      refine harsh_ignore fun _ _ => ⟨⟨h.valid, h.segmentCount, fun htwo k e he => ?_⟩, h.cur⟩
      exact (h.index htwo k e he).imp_left (hw k e)

theorem within_compactIfThreshold (h : st₀.Within st) {now : UInt32} :
    harsh.wp (st.compactIfThreshold now) (fun st' _ => st₀.Within st') fs := by
  rw [Store.compactIfThreshold]
  dsimp only
  split
  · refine wp_seq compacts_compact fun r _ hr => ?_
    have hr := h.trans hr.within
    split
    · -- after a compaction the store goes on in segment 1
      have hone : st₀.Within { r.2 with currentSegment := 1 } :=
        hr.trans (.of_index rfl rfl (fun _ _ he => he) fun htwo => .inr htwo)
      exact wp_seq (within_openSegment hone fun htwo => htwo) fun _ _ h => h
    · exact hr
  · exact h

theorem within_rotateSegmentIfNeeded (h : st₀.Within st) {clk : Clock} {writeSize : Nat} :
    harsh.wp (st.rotateSegmentIfNeeded clk writeSize) (fun r _ => st₀.Within r.2) fs := by
  rw [Store.rotateSegmentIfNeeded]
  split
  · exact h
  refine wp_seq (within_flushBuffer h) fun r _ hr => harsh_ignore fun _ _ => ?_
  -- the segment that is opened in the end is below the count
  have opened (st' : Store) (id : Nat) (hidx : r.2.Indexed st') (hid : st'.currentSegment = id)
      (hcur : 2 ≤ r.2.count → id < r.2.count) (fs' : FileSystem) :
      harsh.wp (st'.openSegment id) (fun r _ => st₀.Within r.2) fs' := by
    have hw : r.2.Within st' := .of_indexed hidx fun htwo => .inr (hid ▸ hcur htwo)
    refine within_openSegment (hr.trans hw) fun htwo => ?_
    rw [hw.count] at htwo ⊢
    exact hcur htwo
  dsimp only
  split
  · next hlt =>
    exact wp_seq (opened _ _ (by exact ⟨rfl, rfl, fun _ _ _ he => .inl he⟩) (by rfl)
      (fun _ => hlt) _) fun _ _ h => h
  split
  · exact wp_seq (opened _ _ (by exact ⟨rfl, rfl, fun _ _ _ he => .inl he⟩) (by rfl)
      (fun htwo => @lastSegment_lt { r.2 with
        activeFile := none, currentSegment := wrap32 (r.2.currentSegment + 1) } htwo) _) fun _ _ h => h
  refine wp_seq compacts_compact fun r' fs' hr' => ?_
  have hcount : r'.2.count = r.2.count := congrArg UInt8.toNat hr'.segmentCount
  -- the members set after the compaction do not matter to the index
  have hindexed (st' : Store) (hvalid : st'.valid = r'.2.valid)
      (hsegs : st'.segmentCount = r'.2.segmentCount) (hindex : st'.index = r'.2.index) :
      r.2.Indexed st' := by
    refine ⟨hvalid.trans hr'.valid, hsegs.trans hr'.segmentCount, fun htwo k e he => ?_⟩
    rw [Store.indexFind, hindex] at he
    exact hr'.index htwo k e he
  split
  · have hlast : 2 ≤ r.2.count → r'.2.lastSegment < r.2.count := hcount ▸ lastSegment_lt
    exact wp_seq (opened _ _ (by exact hindexed _ rfl rfl rfl) (by rfl) hlast _) fun _ _ h => h
  · exact wp_seq (opened _ _ (by exact hindexed _ rfl rfl rfl) (by rfl) (by exact id) _) fun _ _ h => h

theorem within_put {clk : Clock} {key data : Buf} {ttl ts : UInt32} {priority : UInt8} :
    harsh.wp (st.put clk key data ttl ts priority) (fun r _ => st.Within r.2) fs := by
  rw [Store.put]
  split
  · exact Within.refl st
  split
  · exact Within.refl st
  split
  · exact Within.refl st
  refine wp_seq (within_rotateSegmentIfNeeded (.refl st)) fun r _ h₁ => ?_
  refine wp_seq (within_appendBuffer h₁ _) fun st₂ _ h₂ => ?_
  refine wp_seq (within_appendBuffer h₂ _) fun st₃ _ h₃ => ?_
  refine wp_seq (within_appendBuffer h₃ _) fun st₄ _ h₄ => ?_
  refine wp_seq (within_appendBuffer h₄ _) fun st₅ _ h₅ => ?_
  refine wp_seq (within_flushBuffer h₅) fun r' _ h₆ => ?_
  dsimp only
  split
  · exact h₆
  -- the new entry is of the current segment
  have insert {st' : Store} (h : st.Within st') (off ttl : Nat) : st.Within
      (st'.indexInsert key.bytes st'.currentSegment off ts ttl priority) := by
    refine ⟨h.valid, h.segmentCount, fun htwo hin => ?_⟩
    have hin := h.inside htwo hin
    refine ⟨fun k e he => ?_, hin.2⟩
    have he : (st'.index.insert key.bytes _).lookup k = some e := he
    by_cases hk : k = key.bytes
    · rw [hk, AList.lookup_insert, Option.some.injEq] at he
      rw [← he]
      change st'.currentSegment % 256 < st'.count
      rw [Nat.mod_eq_of_lt (Nat.lt_trans hin.2 st'.segmentCount.toNat_lt)]
      exact hin.2
    · rw [AList.lookup_insert_ne hk] at he
      exact hin.1 k e he
  rw [prune_if_exceeds]
  refine wp_seq (within_persistIndexEntry
    ((insert (h₆.trans (.countDead r'.2 key.bytes)) _ _).trans (.prune _))) fun x _ h₇ => ?_
  refine wp_seq (within_compactIfThreshold (h₇.trans ?_)) fun _ _ h => h
  exact .of_eq rfl rfl rfl rfl

theorem within_remove {clk : Clock} {key : Buf} {junkTtl : UInt32} {junkPriority : UInt8} :
    harsh.wp (st.remove clk key junkTtl junkPriority) (fun r _ => st.Within r.2) fs := by
  rw [Store.remove]
  split
  · exact Within.refl st
  split
  · exact Within.refl st
  refine wp_seq (within_appendBuffer (.refl st) _) fun st₂ _ h₂ => ?_
  refine wp_seq (within_appendBuffer h₂ _) fun st₃ _ h₃ => ?_
  refine wp_seq (within_appendBuffer h₃ _) fun st₄ _ h₄ => ?_
  refine wp_seq (within_flushBuffer h₄) fun r _ h₅ => ?_
  refine wp_seq (within_persistIndexEntry ((h₅.trans (.countDead r.2 key.bytes)).trans
    (.indexRemove _ key.bytes))) fun x _ h₆ => ?_
  refine wp_seq (within_compactIfThreshold (h₆.trans ?_)) fun _ _ h => h
  exact .of_eq rfl rfl rfl rfl

theorem within_get {clk : Clock} {key : Buf} {out : Bool} {size : Nat} :
    harsh.wp (st.get clk key out size) (fun r _ => st.Within r.2) fs := by
  rw [Store.get]
  split
  · exact Within.refl st
  split
  · exact Within.refl st
  refine wp_seq (within_flushBuffer (.refl st)) fun r _ h => ?_
  dsimp only
  split
  · exact h
  · split
    · exact h.trans (.indexRemove r.2 key.bytes)
    · exact harsh_ignore fun _ _ => h

theorem within_exists (clk : Clock) (key : Buf) : st.Within (st.exists clk key).2 := by
  rw [Store.exists]
  split
  · exact .refl st
  split
  · exact .refl st
  split
  · exact .refl st
  split
  · exact .indexRemove st key.bytes
  · exact .refl st

theorem within_iterate : harsh.wp st.iterate (fun r _ => st.Within r.2) fs := by
  rw [Store.iterate]
  exact wp_seq (within_flushBuffer (.refl st)) fun _ _ h => harsh_ignore fun _ _ => h

theorem within_close : harsh.wp st.close (fun st' _ => st.Within st') fs := by
  rw [Store.close]
  refine wp_seq (within_flushBuffer (.refl st)) fun r _ h => ?_
  exact harsh_ignore fun _ _ => harsh_ignore fun _ _ => h.trans (.of_eq rfl rfl rfl rfl)

theorem within_clear : harsh.wp st.clear (fun st' _ => st.Within st') fs := by
  rw [Store.clear]
  split
  · exact Within.refl st
  refine wp_seq (within_flushBuffer (.refl st)) fun r _ h => ?_
  refine harsh_ignore fun _ _ => harsh_ignore fun _ _ => harsh_ignore fun _ _ =>
    harsh_ignore fun _ _ => ?_
  -- the index is empty, and the store is back in segment 0
  have cleared (file : File) : st.Within { r.2 with
      index := ∅
      indexFile := file
      activeFile := none
      deadSinceCompact := 0
      currentSegment := 0
      currentOffset := 0
      writeBuf := [] } :=
    h.trans (.of_index rfl rfl (fun _ _ he => by cases he) fun htwo => .inr
      (Nat.lt_of_lt_of_le Nat.zero_lt_two htwo))
  have opened (st' : Store) (h' : st.Within st') (b : Bool) (fs' : FileSystem) : harsh.wp (do
        let x ← if b then st'.openSegment 0 else pure (true, st')
        pure x.2) (fun st' _ => st.Within st') fs' := by
    cases b with
    | false => exact wp_pure_bind h'
    | true => exact wp_seq (within_openSegment h' fun htwo => by omega) fun _ _ h => h
  dsimp only
  split
  · refine wp_seq (Q := fun st' _ => st.Within st') ?_ fun st' fs' h' => opened st' h' _ fs'
    rw [Store.openIndexForAppend]
    exact harsh_ignore fun f _ => cleared f
  · exact wp_pure_bind (opened _ (cleared _) _ _)

end operations

/-! ## Opening -/

/-- What holds whatever fails holds if nothing does. -/
theorem Env.plain_of_harsh {α : Type} {p : FsM α} {Q : α → FileSystem → Prop} {fs : FileSystem}
    (h : harsh.wp p Q fs) : plain.wp p Q fs :=
  Prog.wp_relax h (fun _ _ _ _ hr => ⟨trivial, .inl (hr.2.resolve_right fun hfail => hfail.1)⟩)
    fun _ _ => trivial

/-- The file `p`, if there is one, is empty. -/
def FileSystem.Blank (fs : FileSystem) (p : Path) : Prop := ∀ i, fs.dir p = some i → fs.data i = []

section opening

open Env Store

variable {st : Store} {fs : FileSystem}

theorem FileSystem.Blank.create {p : Path} (h : fs.Blank p) (q : Path) : (fs.create q).Blank p := by
  intro i hi
  rw [FileSystem.dir_create] at hi
  split at hi
  · rw [← Option.some.inj hi]
    exact FileSystem.data_create_next
  · exact (if_neg (Nat.ne_of_lt (fs.lt_next hi))).trans (h i hi)

/-- Opening a file to append to it succeeds, and makes empty files only. -/
theorem wp_openBlank {β : Type} {p : Path} {mode : Mode} (hc : mode.creates = true)
    (ht : mode.truncates = false) {k : File → FsM β} {Q : β → FileSystem → Prop}
    (h : ∀ f fs', (∀ q, fs.Blank q → fs'.Blank q) → plain.wp (k (some f)) Q fs') :
    plain.wp (openFile p mode >>= k) Q fs := by
  refine wp_call trivial id fun _ => ?_
  rw [posix]
  cases fs.dir p with
  | none =>
    rw [hc]
    exact h _ _ fun q hq => hq.create p
  | some i =>
    rw [ht]
    exact h _ _ fun q hq => hq

/-- `open_segment` opens the segment. -/
theorem wp_openSegment_at (s : Nat) :
    plain.wp (st.openSegment s) (fun x fs' => x.2.currentSegment = s ∧ x.2.index = st.index ∧
      x.2.valid = st.valid ∧ x.2.segmentCount = st.segmentCount ∧ x.2.basePrefix = st.basePrefix ∧
      ∀ q, fs.Blank q → fs'.Blank q) fs := by
  rw [Store.openSegment]
  refine wp_closeFile (plain_reads _) (wp_openBlank rfl rfl fun f fs' hf => ?_)
  exact wp_call trivial id fun _ => wp_call trivial id fun _ => ⟨rfl, rfl, rfl, rfl, rfl, hf⟩

/-- The search for the last segment ends below the count. -/
theorem harsh_resumeLoop {n i r : Nat} :
    harsh.wp (st.resumeLoop n i r) (fun x _ => x = r ∨ x < i + n) fs := by
  induction n generalizing i r fs with
  | zero => exact .inl rfl
  | succ n ih =>
    rw [Store.resumeLoop]
    refine harsh_openRead fun f _ => ?_
    cases f with
    | none => exact Prog.wp_mono ih fun x _ hx => by omega
    | some f => exact harsh_call (by exact id) (Prog.wp_mono ih fun x _ hx => by omega)

/-- Rebuilding the index finds entries of the segments it scans. -/
theorem harsh_rebuildLoop {n seg : Nat} {idx : Index} :
    harsh.wp (st.rebuildLoop n seg idx) (fun r _ => ∀ k e, r.lookup k = some e →
      idx.lookup k = some e ∨ e.segment.toNat < seg + n) fs := by
  induction n generalizing seg idx fs with
  | zero => exact fun k e he => .inl he
  | succ n ih =>
    rw [Store.rebuildLoop]
    refine harsh_openRead fun f _ => ?_
    cases f with
    | none => exact Prog.wp_mono ih fun r _ hr k e he => (hr k e he).imp_right fun h => by omega
    | some f =>
      refine wp_seq (harsh_scanLoop_segs erase_within) fun r _ hr => harsh_call (by exact id) ?_
      refine Prog.wp_mono ih fun r' _ hr' k e he => ?_
      rcases hr' k e he with h | h
      · refine (hr k e h).imp_right fun hseg => ?_
        rw [hseg]
        have := Nat.mod_le seg 256
        change seg % 256 < seg + (n + 1)
        omega
      · exact .inr (by omega)

/-- What `init` keeps of the store it works with. -/
structure Store.Same (st st' : Store) : Prop where
  /-- The object stays as valid as it was. -/
  valid : st'.valid = st.valid
  /-- The count stays. -/
  segmentCount : st'.segmentCount = st.segmentCount
  /-- The prefix stays. -/
  basePrefix : st'.basePrefix = st.basePrefix

/-- With the entries of the index below the count, the last part of `init` leaves the store inside. -/
theorem wp_initTail_inside (hin : st.IndexInside) (hpos : 0 < st.count) :
    plain.wp st.initTail (fun x _ => x.2.valid = st.valid ∧ x.2.segmentCount = st.segmentCount ∧
      x.2.Inside) fs := by
  obtain ⟨n, idx, d, hprune, hw, -⟩ := prune_spec st
  have tail (fs : FileSystem) : plain.wp
      (Store.openFiles { st with index := idx, deadSinceCompact := d }) (fun x _ => x.2.valid = st.valid ∧ x.2.segmentCount = st.segmentCount ∧
        x.2.Inside) fs := by
    rw [Store.openFiles, Store.openIndexForAppend]
    refine Prog.wp_bind.2 (wp_seq (plain_wp _ _) fun f fs1 _ => wp_ret ?_)
    refine wp_seq (plain_of_harsh harsh_resumeLoop) fun r fs2 hr => ?_
    refine wp_seq (wp_openSegment_at r) fun x fs3 hx => wp_ret ?_
    obtain ⟨hcur, hindex, hvalid, hcount, -⟩ := hx
    refine ⟨hvalid, hcount, fun k e he => ?_, ?_⟩
    · rw [Store.indexFind, hindex] at he
      rw [Store.count, hcount]
      exact hin k e (hw k e he)
    · rw [hcur, Store.count, hcount]
      have hr : r = 0 ∨ r < 0 + st.segmentCount.toNat := hr
      have hpos : 0 < st.segmentCount.toNat := hpos
      change r < st.segmentCount.toNat
      omega
  rw [Store.initTail, hprune]
  dsimp only
  split
  · exact wp_seq (plain_wp _ _) fun _ _ _ => wp_seq (plain_wp _ _) fun _ fs' _ => tail fs'
  · exact tail fs

/-- What there is to load is below the count: the segment of every entry of the index file that counts,
and, for a key that the file does not mention, the segment of what the object has in its index. -/
def Store.LoadsInside (st : Store) (fs : FileSystem) : Prop :=
  ∀ bs ∈ fs.file st.indexName,
    (∀ e ∈ standingEntries (loadedEntries loopFuel bs), e.value.segment.toNat < st.count) ∧
    ∀ it ∈ st.index.entries, (∀ e ∈ loadedEntries loopFuel bs, e.key ≠ it.1) →
      it.2.segment.toNat < st.count

instance (st : Store) (fs : FileSystem) : Decidable (st.LoadsInside fs) :=
  inferInstanceAs (Decidable (∀ bs ∈ fs.file st.indexName, _ ∧ _))

/-- What is loaded then is below the count, too. -/
theorem Store.LoadsInside.lookup {st : Store} (h : st.LoadsInside fs) {i : Nat}
    (hi : fs.dir st.indexName = some i) {k : Key} {v : IndexValue}
    (hv : (load loopFuel (fs.data i) st.index).lookup k = some v) : v.segment.toNat < st.count := by
  obtain ⟨hentries, hindex⟩ := h (fs.data i) (FileSystem.file_eq_some hi)
  rw [load_eq_foldl, lookup_foldl_apply] at hv
  split at hv
  · obtain ⟨e, he, rfl⟩ := Option.map_eq_some_iff.1 hv
    exact hentries e (List.mem_of_find?_eq_some he)
  · next hno =>
    exact hindex ⟨k, v⟩ (AList.mem_lookup_iff.1 hv) fun e he hk => hno ⟨e, he, hk⟩

theorem wp_initIndex_inside (hload : st.LoadsInside fs) (hpos : 0 < st.count) :
    plain.wp st.initIndex (fun x _ => x.2.valid = st.valid ∧ x.2.segmentCount = st.segmentCount ∧
      x.2.Inside) fs := by
  rw [Store.initIndex]
  cases hi : fs.dir st.indexName with
  | some i =>
    refine wp_seq (wp_loadIndex_file hi) fun x fs' hx => ?_
    rw [hx.1]
    exact wp_initTail_inside (fun _ _ => hload.lookup hi) hpos
  | none =>
    refine Prog.wp_bind.2 (wp_loadIndex_missing (plain_reads fs) hi ?_)
    -- the index is rebuilt from the segments below the count
    have rebuilt : plain.wp st.rebuildIndexFromSegments
        (fun st' _ => st'.valid = st.valid ∧ st'.segmentCount = st.segmentCount ∧ st'.IndexInside) fs := by
      rw [Store.rebuildIndexFromSegments]
      refine wp_seq (plain_of_harsh harsh_rebuildLoop) fun idx _ hidx => ?_
      refine wp_seq (plain_wp _ _) fun _ _ _ => wp_seq (plain_wp _ _) fun _ _ _ =>
        wp_seq (plain_wp _ _) fun _ _ _ => ⟨rfl, rfl, fun k e he => ?_⟩
      have hlt := (hidx k e he).resolve_left (by rintro ⟨⟩)
      rwa [Nat.zero_add] at hlt
    refine wp_seq rebuilt fun st' fs' h => ?_
    obtain ⟨hvalid, hcount, hin⟩ := h
    refine Prog.wp_mono (wp_initTail_inside hin (by rwa [Store.count, hcount])) fun x _ hx => ?_
    exact ⟨hx.1.trans hvalid, hx.2.1.trans hcount, hx.2.2⟩

/-- An empty journal, or none, means that there is nothing to recover. -/
theorem wp_recover_blank (h : fs.Blank st.journalName) :
    plain.wp st.recoverIfNeeded
      (fun x fs' => x = st ∧ (fs' = fs ∨ fs' = fs.unlink st.journalName)) fs := by
  rw [Store.recoverIfNeeded]
  refine wp_openRead (plain_reads fs) (fun _ => wp_ret ⟨rfl, .inl rfl⟩) fun i hi _ => ?_
  refine wp_read (plain_reads fs) rfl fun f' _ _ => wp_close (plain_reads fs) ?_
  have hrest : Handle.rest ⟨i, 0, .read⟩ fs = [] := h i hi
  rw [hrest]
  exact wp_call trivial id fun _ => ⟨rfl, .inr rfl⟩

theorem wp_flushBuffer_dir : plain.wp st.flushBuffer (fun x fs' => st.Same x.2 ∧ fs'.dir = fs.dir) fs := by
  rw [Store.flushBuffer]
  split
  · exact ⟨⟨rfl, rfl, rfl⟩, rfl⟩
  split
  · exact ⟨⟨rfl, rfl, rfl⟩, rfl⟩
  next f =>
  refine wp_call trivial id fun _ => wp_call trivial id fun _ => ⟨⟨rfl, rfl, rfl⟩, ?_⟩
  rw [posix, posix]
  split
  · rfl
  split
  · rfl
  · rfl

theorem wp_removeSegments_dir {n i : Nat} : plain.wp (st.removeSegments n i)
    (fun _ fs' => ∀ p, fs.dir p = none → fs'.dir p = none) fs := by
  induction n generalizing i fs with
  | zero => exact fun p hp => hp
  | succ n ih =>
    rw [Store.removeSegments]
    refine wp_call trivial id fun _ => Prog.wp_mono ih fun _ fs' h p hp => h p ?_
    rw [posix, FileSystem.dir_unlink]
    exact ite_eq_left_iff.2 fun _ => hp

/-- `clear` empties the index and its file, and leaves no journal that was not there. -/
theorem wp_clear_blank (hvalid : st.valid = true) (hnone : fs.dir st.journalName = none) :
    plain.wp st.clear (fun x fs' => st.Same x ∧ x.index = ∅ ∧ fs'.Blank x.indexName ∧
      fs'.Blank x.journalName) fs := by
  rw [Store.clear, if_neg (by rw [hvalid]; exact Bool.false_ne_true)]
  refine wp_seq wp_flushBuffer_dir fun r fs1 hr => ?_
  obtain ⟨hsame, hdir⟩ := hr
  dsimp only
  refine wp_closeFile (plain_reads _) (wp_closeFile (plain_reads _) ?_)
  refine wp_seq wp_removeSegments_dir fun _ fs2 hfs2 => wp_call trivial id fun _ => ?_
  have hjournal : fs2.dir r.2.journalName = none := by
    refine hfs2 _ ?_
    rw [Store.journalName, hsame.basePrefix, hdir]
    exact hnone
  have hblank : ∀ q, q = r.2.indexName ∨ q = r.2.journalName → (fs2.unlink r.2.indexName).Blank q := by
    rintro q (rfl | rfl) i hi
    · rw [FileSystem.dir_unlink_self] at hi
      cases hi
    · rw [FileSystem.dir_unlink, ite_eq_left_iff.2 fun _ => hjournal] at hi
      cases hi
  -- what is opened afterwards is empty when it is made
  have opened (st' : Store) (b : Bool) (fs' : FileSystem) (hsame' : r.2.Same st') (hindex : st'.index = ∅)
      (hfs' : ∀ q, q = r.2.indexName ∨ q = r.2.journalName → fs'.Blank q) :
      plain.wp (do
        let x ← if b then st'.openSegment 0 else pure (true, st')
        pure x.2) (fun x fs' => st.Same x ∧ x.index = ∅ ∧ fs'.Blank x.indexName ∧
          fs'.Blank x.journalName) fs' := by
    have done (x : Store) (fs'' : FileSystem) (hx : st'.Same x) (hidx : x.index = st'.index)
        (hfs'' : ∀ q, fs'.Blank q → fs''.Blank q) : st.Same x ∧ x.index = ∅ ∧ fs''.Blank x.indexName ∧
          fs''.Blank x.journalName := by
      refine ⟨⟨hx.valid.trans (hsame'.valid.trans hsame.valid),
        hx.segmentCount.trans (hsame'.segmentCount.trans hsame.segmentCount),
        hx.basePrefix.trans (hsame'.basePrefix.trans hsame.basePrefix)⟩, hidx.trans hindex, ?_, ?_⟩
      · refine hfs'' _ (hfs' _ (.inl ?_))
        rw [Store.indexName, hx.basePrefix, hsame'.basePrefix, Store.indexName]
      · refine hfs'' _ (hfs' _ (.inr ?_))
        rw [Store.journalName, hx.basePrefix, hsame'.basePrefix, Store.journalName]
    cases b with
    | false => exact wp_pure_bind (wp_ret (done st' fs' ⟨rfl, rfl, rfl⟩ rfl fun _ h => h))
    | true =>
      refine wp_seq (wp_openSegment_at 0) fun x fs'' hx => wp_ret ?_
      obtain ⟨-, hidx, hvalid', hcount, hpre, hfs''⟩ := hx
      exact done x.2 fs'' ⟨hvalid', hcount, hpre⟩ hidx hfs''
  split
  · rw [Store.openIndexForAppend]
    refine Prog.wp_bind.2 (wp_openBlank rfl rfl fun f fs' hfs' => wp_ret ?_)
    exact opened _ _ fs' ⟨rfl, rfl, rfl⟩ rfl fun q hq => hfs' q (hblank q hq)
  · exact wp_pure_bind (opened _ _ _ ⟨rfl, rfl, rfl⟩ rfl hblank)

/-- What `init` has to find once the store is configured. -/
structure Store.Boots (st : Store) (clearOnInit : Bool) (fs : FileSystem) : Prop where
  /-- No journal. -/
  journal : fs.dir st.journalName = none
  /-- Unless it clears the files, nothing to load from a segment at or beyond the count. -/
  loads : clearOnInit = true ∨ st.LoadsInside fs

instance (st : Store) (clearOnInit : Bool) (fs : FileSystem) : Decidable (st.Boots clearOnInit fs) :=
  decidable_of_iff (fs.dir st.journalName = none ∧ (clearOnInit = true ∨ st.LoadsInside fs))
    ⟨fun h => ⟨h.1, h.2⟩, fun h => ⟨h.journal, h.loads⟩⟩

theorem wp_recovered_inside (hblank : fs.Blank st.journalName) (hload : st.LoadsInside fs)
    (hpos : 0 < st.count) : plain.wp (st.recoverIfNeeded >>= Store.initIndex)
      (fun x _ => x.2.valid = st.valid ∧ x.2.segmentCount = st.segmentCount ∧ x.2.Inside) fs := by
  refine wp_seq (wp_recover_blank hblank) fun x fs' hx => ?_
  obtain ⟨rfl, rfl | rfl⟩ := hx
  · exact wp_initIndex_inside hload hpos
  · refine wp_initIndex_inside (fun bs hbs => hload bs ?_) hpos
    obtain ⟨i, hi, rfl⟩ := Option.map_eq_some_iff.1 hbs
    rw [FileSystem.dir_unlink] at hi
    split at hi
    · cases hi
    · exact FileSystem.file_eq_some hi

theorem wp_initFiles_inside {clearOnInit : Bool} (hvalid : st.valid = true) (hpos : 0 < st.count)
    (h : st.Boots clearOnInit fs) : plain.wp (st.initFiles clearOnInit)
      (fun x _ => x.2.valid = true ∧ x.2.segmentCount = st.segmentCount ∧ x.2.Inside) fs := by
  rw [Store.initFiles]
  cases clearOnInit with
  | false =>
    have hblank : fs.Blank st.journalName := fun i hi => by cases h.journal.symm.trans hi
    have hload := h.loads.resolve_left Bool.false_ne_true
    exact wp_pure_bind (Prog.wp_mono (wp_recovered_inside hblank hload hpos) fun x _ hx =>
      ⟨hx.1.trans hvalid, hx.2⟩)
  | true =>
    refine wp_seq (wp_clear_blank hvalid h.journal) fun st' fs' hst' => ?_
    obtain ⟨hsame, hindex, hblank, hjournal⟩ := hst'
    -- an empty index file adds nothing to the empty index
    have hload : st'.LoadsInside fs' := by
      intro bs hbs
      obtain ⟨i, hi, rfl⟩ := Option.map_eq_some_iff.1 hbs
      rw [hblank i hi, hindex]
      exact ⟨fun e he => (by cases he), fun it hit _ => (by cases hit)⟩
    refine Prog.wp_mono (wp_recovered_inside hjournal hload (by rwa [Store.count, hsame.segmentCount]))
      fun x _ hx => ?_
    exact ⟨hx.1.trans (hsame.valid.trans hvalid), hx.2.1.trans hsame.segmentCount, hx.2.2⟩

end opening

/-! ## Runs -/

/-- What happens to a store and its files: a new object takes over, the object is opened or closed, a
policy is set, or an operation is performed. -/
inductive Move
  | construct (segmentSize : UInt32) (segmentCount : UInt8) (order : IterationOrder)
  | init (clearOnInit : Bool) (segmentSize : UInt32) (segmentCount : UInt8)
  | close
  | clear
  | setTtlSecs (ttl : UInt32)
  | setMaxRecs (maxRecs : UInt32)
  | put (clk : Clock) (key data : Buf) (ttl ts : UInt32) (priority : UInt8)
  | get (clk : Clock) (key : Buf) (out : Bool) (size : Nat)
  | «exists» (clk : Clock) (key : Buf)
  | remove (clk : Clock) (key : Buf) (junkTtl : UInt32) (junkPriority : UInt8)
  | iterate
  | compact (now : UInt32)

namespace Move

/-- Perform one move under the prefix `pre`. -/
def perform (pre : Path) (st : Store) : Move → FsM Store
  | .construct segmentSize segmentCount order => pure (Store.new segmentSize segmentCount order)
  | .init clearOnInit segmentSize segmentCount => do
    let (_, st) ← st.init pre clearOnInit segmentSize segmentCount
    pure st
  | .close => st.close
  | .clear => st.clear
  | .setTtlSecs ttl => pure (st.setTtlSecs ttl)
  | .setMaxRecs maxRecs => pure (st.setMaxRecs maxRecs)
  | .put clk key data ttl ts priority => do
    let (_, st) ← st.put clk key data ttl ts priority
    pure st
  | .get clk key out size => do
    let (_, st) ← st.get clk key out size
    pure st
  | .exists clk key => pure (st.exists clk key).2
  | .remove clk key junkTtl junkPriority => do
    let (_, st) ← st.remove clk key junkTtl junkPriority
    pure st
  | .iterate => do
    let (_, st) ← st.iterate
    pure st
  | .compact now => do
    let (_, st) ← st.compact now
    pure st

/-- The store and the files after the moves. -/
def run (pre : Path) : List Move → Store × FileSystem → Store × FileSystem
  | [], s => s
  | m :: ms, s => run pre ms (Prog.exec posix (m.perform pre s.1) s.2)

/-- The moves that keep segment numbers in range: an `init` has to configure two segments or more and to
find no entry beyond them. -/
def Meets (pre : Path) (s : Store × FileSystem) : Move → Prop
  | .init clearOnInit segmentSize segmentCount =>
    2 ≤ (s.1.configured pre segmentSize segmentCount).count ∧
      (s.1.configured pre segmentSize segmentCount).Boots clearOnInit s.2
  | _ => True

/-- Every move of the run is one that keeps segment numbers in range. -/
def MeetsAll (pre : Path) : List Move → Store × FileSystem → Prop
  | [], _ => True
  | m :: ms, s => m.Meets pre s ∧ MeetsAll pre ms (Prog.exec posix (m.perform pre s.1) s.2)

instance decidableMeets (pre : Path) (s : Store × FileSystem) : (m : Move) → Decidable (m.Meets pre s)
  | .init clearOnInit segmentSize segmentCount =>
    inferInstanceAs (Decidable (2 ≤ (s.1.configured pre segmentSize segmentCount).count ∧
      (s.1.configured pre segmentSize segmentCount).Boots clearOnInit s.2))
  | .construct .. | .close | .clear | .setTtlSecs _ | .setMaxRecs _ | .put .. | .get .. | .exists ..
  | .remove .. | .iterate | .compact _ => .isTrue trivial

instance decidableMeetsAll (pre : Path) : (ms : List Move) → (s : Store × FileSystem) →
    Decidable (MeetsAll pre ms s)
  | [], _ => .isTrue trivial
  | m :: ms, s => @instDecidableAnd _ _ (decidableMeets pre s m) (decidableMeetsAll pre ms _)

end Move

/-- Every move keeps an opened store with two segments or more inside. -/
theorem Move.keeps_inside {pre : Path} {s : Store × FileSystem} {m : Move} (hm : m.Meets pre s)
    (h : s.1.valid = true → 2 ≤ s.1.count ∧ s.1.Inside) :
    (Prog.exec posix (m.perform pre s.1) s.2).1.valid = true →
      2 ≤ (Prog.exec posix (m.perform pre s.1) s.2).1.count ∧
        (Prog.exec posix (m.perform pre s.1) s.2).1.Inside := by
  obtain ⟨st, fs⟩ := s
  have within {p : FsM Store} (hp : Env.harsh.wp p (fun st' _ => st.Within st') fs) :
      (Prog.exec posix p fs).1.valid = true → 2 ≤ (Prog.exec posix p fs).1.count ∧
        (Prog.exec posix p fs).1.Inside := by
    have hw := @Env.plain_exec _ _ (fun (a : Store) _ => st.Within a) fs (Env.plain_of_harsh hp)
    intro hvalid
    obtain ⟨htwo, hin⟩ := h (hw.valid.symm.trans hvalid)
    exact ⟨hw.count ▸ htwo, hw.inside htwo hin⟩
  have second {α : Type} {p : FsM (α × Store)} (hp : Env.harsh.wp p (fun r _ => st.Within r.2) fs) :
      Env.harsh.wp (p >>= fun r => pure r.2) (fun st' _ => st.Within st') fs :=
    Env.wp_seq hp fun _ _ hr => hr
  cases m with
  | construct => exact fun hvalid => nomatch hvalid
  | init clearOnInit segmentSize segmentCount =>
    obtain ⟨htwo, hboots⟩ := hm
    have hinit : Env.plain.wp (Move.perform pre st (.init clearOnInit segmentSize segmentCount))
        (fun x _ => x.valid = true ∧
          x.segmentCount = (st.configured pre segmentSize segmentCount).segmentCount ∧ x.Inside) fs :=
      Env.wp_seq (wp_init_configured (fun _ => ⟨trivial, id⟩)
        (wp_initFiles_inside rfl (Nat.lt_of_lt_of_le Nat.zero_lt_two htwo) hboots)) fun _ _ hx => hx
    obtain ⟨-, hcount, hin⟩ := @Env.plain_exec _ _ (fun (x : Store) _ => x.valid = true ∧
      x.segmentCount = (st.configured pre segmentSize segmentCount).segmentCount ∧ x.Inside) fs hinit
    refine fun _ => ⟨?_, hin⟩
    rw [Store.count, hcount]
    exact htwo
  | close => exact within within_close
  | clear => exact within within_clear
  | setTtlSecs => exact within (.of_eq rfl rfl rfl rfl)
  | setMaxRecs => exact within (.of_eq rfl rfl rfl rfl)
  | put => exact within (second within_put)
  | get => exact within (second within_get)
  | «exists» => exact within (within_exists _ _)
  | remove => exact within (second within_remove)
  | iterate => exact within (second within_iterate)
  | compact => exact within (second (Prog.wp_mono compacts_compact fun _ _ hr => hr.within))

/-- **Every run does**, whatever it does in between. -/
theorem Move.run_inside {pre : Path} {ms : List Move} {s : Store × FileSystem} (hms : Move.MeetsAll pre ms s)
    (h : s.1.valid = true → 2 ≤ s.1.count ∧ s.1.Inside) :
    (Move.run pre ms s).1.valid = true → (Move.run pre ms s).1.Inside := by
  induction ms generalizing s with
  | nil => exact fun hvalid => (h hvalid).2
  | cons m ms ih => exact ih hms.2 (Move.keeps_inside hms.1 h)

end MicroStore
