import MicroStore.Bounding
import MicroStore.Cooling
import MicroStore.Running
import MicroStore.Sparing

/-!
# How large segments become

`rotate_segment_if_needed` makes its test before a put is appended, with the length of the value and
without that of the key, and `remove` does not call it.  `Store.Sized` is what a fault-free run keeps as
long as every record fits in the segment it is appended to (`Update.Fits`): the active file ends at
`current_offset`, the segments behind it are not there, and none is larger than `segment_size` but a
segment 0 that a compaction has written.  So segments respect their size in such a run, from new files
on (`segments_respect_size`).

## What is here

* `Store.OnlyFirst` — what a compaction leaves: segment 0 and no other.
* `Store.Respects` — the property: no segment file is larger than `segment_size`.  A segment 0 that a
  compaction has written is the exception, and `compacted` says whether there has been one.
* `Store.Idle`, `Store.Resting`, `Store.Sized` — the invariant in three layers: the members, the files,
  and the active file.
* `Update.Fits` — the condition on the state before a put or a remove: its record fits behind the
  current offset, if the store is going to append it there.
* `Store.Sized.rotateLog`, `Sized.put`, `Sized.remove` — the operations keep the invariant.
* `Setup.Roomy` — a configuration with enough segments, each larger than one record and the write
  buffer.
* `segments_respect_size` — the result; `segments_outgrow_size` — a key that the test has not counted,
  and a tombstone without a test.

The reports of attempts are those of `Cooling.lean`: a successful one means that segment 0 has been
written by a compaction.
-/

set_option autoImplicit false

namespace MicroStore

open Prog

/-! ## What a compaction leaves

It removes all segments and writes segment 0.  The proof goes through the calls that concern a later
segment, and there are none but removals. -/

/-- The segments behind segment 0. -/
def StoreFile.later (count : Nat) (a : StoreFile) : Prop := ∃ s, a = .segment s ∧ 0 < s ∧ s < count

/-- The index file can be appended to. -/
def Store.IndexOpen (st : Store) (fs : FileSystem) : Prop :=
  ∃ f, st.indexFile = some f ∧ f.mode = .append ∧ fs.dir st.indexName = some f.ino

/-- No segment but segment 0 has a file. -/
def Store.OnlyFirst (st : Store) (fs : FileSystem) : Prop :=
  ∀ q, Names st.basePrefix (StoreFile.later st.count) q → fs.dir q = none

section compacting

open Env

variable {st : Store} {fs : FileSystem}

/-- The segments behind segment 0, and the index file. -/
def StoreFile.kept (count : Nat) (a : StoreFile) : Prop := a.later count ∨ a = .index

/-- The later segments are not there. -/
theorem Store.OnlyFirst.segment (h : st.OnlyFirst fs) {s : Nat} (h0 : 0 < s) (hs : s < st.count) :
    fs.dir (st.segmentName s) = none :=
  h _ (mem_names (a := .segment s) (Nat.lt_trans hs st.segmentCount.toNat_lt) ⟨s, rfl, h0, hs⟩)

/-- A program that leaves the names of the segments alone. -/
theorem Store.OnlyFirst.spared {α : Type} {p : FsM α} (h : st.OnlyFirst fs)
    (hp : p.calls (Call.Spares (Names st.basePrefix (StoreFile.later st.count)))) :
    plain.wp p (fun _ fs' => st.OnlyFirst fs') fs :=
  Prog.wp_mono (plain_spares hp) fun _ _ hs q hq => (hs q hq).trans (h q hq)

/-- The loop that removes segments. -/
theorem plain_removeSegments (n i : Nat) : plain.wp (st.removeSegments n i)
    (fun _ fs' => ∀ s, i ≤ s → s < i + n → fs'.dir (st.segmentName s) = none) fs := by
  induction n generalizing i fs with
  | zero => exact fun s h1 h2 => by omega
  | succ n ih =>
    rw [Store.removeSegments]
    refine Env.wp_call trivial id fun _ => Prog.wp_mono (Prog.wp_and wp_removeSegments_dir (ih (i + 1)))
      fun _ fs' h s h1 h2 => ?_
    by_cases hs : s = i
    · exact h.1 _ (hs ▸ FileSystem.dir_unlink_self)
    · exact h.2 s (by omega) (by omega)

/-- Rewriting the index file leaves the segments alone. -/
theorem plain_rewriteIndex (hn : NamesOk st.basePrefix) (h : st.OnlyFirst fs) :
    plain.wp st.rewriteIndex (fun st' fs' => st'.writeBuf = st.writeBuf ∧
      st'.IndexOpen fs' ∧ st.OnlyFirst fs') fs := by
  have hindex : ¬Names st.basePrefix (StoreFile.later st.count) st.indexName :=
    hn.not_mem .index trivial (by simp [StoreFile.later])
  rw [Store.rewriteIndex]
  refine Env.wp_seq (h.spared (spares_closeFile _)) fun _ fs1 h1 => ?_
  refine Env.wp_seq (h1.spared (p := removeFile st.indexName) ⟨hindex, fun _ => trivial⟩)
    fun _ fs2 h2 => ?_
  refine Env.wp_seq (h2.spared (spares_writeIndexBulk hindex)) fun _ fs3 h3 => ?_
  refine Prog.wp_bind.2 ?_
  rw [Store.openIndexForAppend]
  refine wp_openKeep (a := .index) trivial rfl rfl (plain_ok _ _) fun fs4 i hframe hi _ _ => ?_
  refine ⟨rfl, ⟨⟨i, 0, .append⟩, rfl, rfl, hi⟩, fun q hq => ?_⟩
  rw [hframe.dir fun hq' => ?_]
  · exact h3 q hq
  · obtain ⟨a, -, rfl, rfl⟩ := hq'
    exact hindex hq

/-- `finalize_compaction` leaves segment 0 alone among the segments. -/
theorem plain_finalizeCompaction (hn : NamesOk st.basePrefix) (hi : st.IndexOpen fs) :
    plain.wp st.finalizeCompaction (fun st' fs' => st'.writeBuf = st.writeBuf ∧
      st'.IndexOpen fs' ∧ st.OnlyFirst fs') fs := by
  have hzero : ¬Names st.basePrefix (StoreFile.kept st.count) (st.segmentName 0) :=
    hn.not_mem (.segment 0) (show 0 < 256 by decide) (by simp [StoreFile.kept, StoreFile.later])
  have htmp : ¬Names st.basePrefix (StoreFile.kept st.count) st.tmpName :=
    hn.not_mem .tmp trivial (by simp [StoreFile.kept, StoreFile.later])
  have hname : Names st.basePrefix (StoreFile.kept st.count) st.indexName :=
    mem_names (a := .index) trivial (.inr rfl)
  rw [Store.finalizeCompaction]
  -- the segments go, the index file stays
  have hremoved : plain.wp (st.removeSegments st.count 0)
      (fun _ fs' => st.IndexOpen fs' ∧ st.OnlyFirst fs') fs := by
    have hspares : (st.removeSegments st.count 0).calls (Call.Spares (· = st.indexName)) :=
      spares_removeSegments _ _ fun s _ hs => hn.ne (a := .segment s) (by
        have := st.segmentCount.toNat_lt
        change s < 256
        rw [Nat.zero_add, Store.count] at hs
        omega) (b := .index) trivial (by simp)
    refine Prog.wp_mono (Prog.wp_and (plain_spares hspares) (plain_removeSegments _ _)) ?_
    rintro _ fs' ⟨hdir, hgone⟩
    refine ⟨?_, fun q hq => ?_⟩
    · obtain ⟨f, hf, hm, hd⟩ := hi
      exact ⟨f, hf, hm, (hdir _ rfl).trans hd⟩
    · obtain ⟨_, -, ⟨s, rfl, -, hs⟩, rfl⟩ := hq
      exact hgone s (Nat.zero_le s) (by omega)
  refine Env.wp_seq hremoved fun _ fs1 h1 => Env.wp_call trivial id fun _ => ?_
  -- the rename concerns other files
  have hkept : ∀ q, Names st.basePrefix (StoreFile.kept st.count) q →
      (posix (.rename st.tmpName (st.segmentName 0)) fs1).2.dir q = fs1.dir q :=
    fun q hq => Call.Spares.dir (c := .rename st.tmpName (st.segmentName 0)) ⟨htmp, hzero⟩ fs1 hq
  generalize posix (.rename st.tmpName (st.segmentName 0)) fs1 = x at hkept
  obtain ⟨renamed, fs2⟩ := x
  have h2 : st.OnlyFirst fs2 := fun q hq => (hkept q (hq.mono fun _ => .inl)).trans (h1.2 q hq)
  dsimp only at hkept ⊢
  split
  · obtain ⟨f, hf, hm, hd⟩ := h1.1
    refine Env.wp_seq (plain_spares (p := removeFile st.tmpName) ⟨htmp, fun _ => trivial⟩)
      fun _ fs3 h3 => ⟨rfl, ⟨f, hf, hm, ?_⟩, fun q hq => ?_⟩
    · exact (h3 _ hname).trans ((hkept _ hname).trans hd)
    · exact (h3 q (hq.mono fun _ => .inl)).trans (h2 q hq)
  · refine wp_openRead (plain_reads _) (fun _ => ?_) fun i _ _ => ?_
    · exact @plain_rewriteIndex { st with index := ∅ } _ hn h2
    · refine Env.wp_seq (h2.spared (spares_scanLoop _ _ _ _ _ _)) fun y fs3 h3 => ?_
      refine wp_close (plain_reads _) ?_
      exact @plain_rewriteIndex { st with index := y.2 } _ hn h3

/-- `compact` succeeds and leaves segment 0 alone among the segments. -/
theorem plain_compact (hn : NamesOk st.basePrefix) (hi : st.IndexOpen fs) {now : UInt32} :
    plain.wp (st.compact now) (fun r fs' => r.1 = true ∧ st.Steady r.2 ∧
      r.2.writeBuf = st.writeBuf ∧ r.2.IndexOpen fs' ∧ st.OnlyFirst fs') fs := by
  have hok : plain.wp (st.compact now) (fun r _ => r.1 = true) fs := by
    refine Prog.wp_relax (served_compact st now) (fun c s r s' h => ?_) fun _ _ => trivial
    have hrun : (r, s') = posix c s := h.2.resolve_right fun h => h.1
    have hr : r = (posix c s).1 := congrArg Prod.fst hrun
    exact hr ▸ c.served_posix s
  have hsteady : plain.wp (st.compact now) (fun r _ => st.Steady r.2) fs :=
    wp_of_always (fun _ _ => trivial) (steady_compact (.refl st))
  -- the index file stays open up to the end
  have hne (a : StoreFile) (ha : a.Valid) (h : a ≠ .index) : ¬storePath st.basePrefix a = st.indexName :=
    hn.ne ha (b := .index) trivial h
  have hjournal := hne .journal trivial (by simp)
  have htmp := hne .tmp trivial (by simp)
  have hrest : plain.wp (st.compact now) (fun r fs' => r.1 = true →
      r.2.writeBuf = st.writeBuf ∧ r.2.IndexOpen fs' ∧ st.OnlyFirst fs') fs := by
    rw [Store.compact]
    refine Env.wp_seq (plain_spares (S := (· = st.indexName)) (spares_writeJournal hjournal _ _ _))
      fun _ fs1 h1 => ?_
    refine Env.wp_seq (plain_spares (p := openFile st.tmpName .write) (S := (· = st.indexName))
      ⟨.inl htmp, fun _ => trivial⟩) fun file fs2 h2 => ?_
    cases file with
    | none => exact Env.wp_seq (plain_wp _ _) fun _ _ _ => by rintro ⟨⟩
    | some outf =>
      obtain ⟨n, idx, d, hprune, -⟩ := prune_spec st
      dsimp only
      rw [hprune]
      refine Env.wp_seq (plain_spares (S := (· = st.indexName)) (spares_compactLoop hjournal _ _ _ _
        fun s _ hs => hne (.segment s) ?_ (by simp))) fun x fs3 h3 => ?_
      · have := st.segmentCount.toNat_lt
        change s < 256
        change s < 0 + st.segmentCount.toNat at hs
        omega
      refine Env.wp_call trivial id fun _ => wp_close (plain_reads _) ?_
      obtain ⟨ok, committed, outf⟩ := x
      cases ok with
      | false =>
        dsimp only
        split
        · split
          · exact Env.wp_seq (plain_wp _ _) fun _ _ _ => Env.wp_seq (plain_wp _ _) fun _ _ _ => by
              rintro ⟨⟩
          · rintro ⟨⟩
        · next h => exact absurd rfl h
      | true =>
        refine Env.wp_seq (plain_spares (S := (· = st.indexName)) (spares_writeJournal hjournal _ _ _))
          fun _ fs4 h4 => ?_
        have hopen : Store.IndexOpen { st with index := idx, deadSinceCompact := d } fs4 := by
          obtain ⟨f, hf, hm, hd⟩ := hi
          exact ⟨f, hf, hm, (h4 _ rfl).trans ((h3 _ rfl).trans ((h2 _ rfl).trans
            ((h1 _ rfl).trans hd)))⟩
        refine Env.wp_seq (Prog.wp_and (wp_of_always (fun _ _ => trivial) (steady_finalizeCompaction
          (.refl _))) (plain_finalizeCompaction hn hopen)) fun st' fs5 h5 => ?_
        obtain ⟨hsteady, hbuf, ⟨f, hf, hm, hd⟩, hfirst⟩ := h5
        have hpre : st'.basePrefix = st.basePrefix := hsteady.basePrefix
        -- the journal is neither of these files
        have hnot : ¬Names st.basePrefix (StoreFile.kept st.count) st'.journalName := by
          rw [Store.journalName, hpre]
          exact hn.not_mem .journal trivial (by simp [StoreFile.kept, StoreFile.later])
        refine Env.wp_seq (plain_spares (p := st'.clearJournal) ⟨hnot, fun _ => trivial⟩)
          fun _ fs6 h6 _ => ⟨hbuf, ⟨f, hf, hm, ?_⟩, fun q hq => ?_⟩
        · refine (h6 _ ?_).trans hd
          rw [Store.indexName, hpre]
          exact mem_names trivial (.inr rfl)
        · exact (h6 q (hq.mono fun _ => .inl)).trans (hfirst q hq)
  exact Prog.wp_mono (Prog.wp_and hok (Prog.wp_and hsteady hrest)) fun r fs' h =>
    ⟨h.1, h.2.1, h.2.2 h.1⟩

end compacting

/-! ## The invariant

`Sized` is stated of fault-free runs; the current offset is the length of the active file, which a
failed write would not keep. -/

/-- No segment file is larger than `segment_size`, but segment 0 may be if `compacted` says that a
compaction has written it. -/
def Store.Respects (st : Store) (compacted : Prop) (fs : FileSystem) : Prop :=
  ∀ s < st.count, s ≠ 0 ∨ ¬compacted →
    ((fs.file (st.segmentName s)).getD []).length ≤ st.segmentSize.toNat

instance (st : Store) (compacted : Prop) [Decidable compacted] (fs : FileSystem) :
    Decidable (st.Respects compacted fs) :=
  inferInstanceAs (Decidable (∀ s < _, _ → _))

/-- The object has been configured, any of its records fits in a segment, and there is nothing in the
write buffer and no cooldown. -/
structure Store.Idle (st : Store) : Prop where
  /-- `init` has succeeded. -/
  valid : st.valid = true
  /-- Different files have different names. -/
  names : NamesOk st.basePrefix
  /-- There is a segment to go on in. -/
  two_le : 2 ≤ st.count
  /-- Any record fits an empty segment. -/
  room : headerSize + maxKeyLen + maxValueLen + commitSize ≤ st.segmentSize.toNat
  /-- No compaction is held off. -/
  cool : st.compactInCooldown = false
  /-- Nothing is held back. -/
  buf : st.writeBuf = []

/-- Besides, the index file is open, and the segments respect their size. -/
structure Store.Resting (st : Store) (compacted : Prop) (fs : FileSystem) : Prop extends st.Idle where
  /-- The index file is open. -/
  index : st.IndexOpen fs
  /-- The segments respect their size. -/
  respects : st.Respects compacted fs

/-- Besides, the active file is the last segment that is there and ends at the current offset, and it
is not one that a compaction has written. -/
structure Store.Sized (st : Store) (compacted : Prop) (fs : FileSystem) : Prop
    extends st.Resting compacted fs where
  /-- The current segment is open and ends at the current offset. -/
  active : ∃ f, st.activeFile = some f ∧ f.mode = .readAppend ∧
    fs.dir (st.segmentName st.currentSegment) = some f.ino ∧
    (fs.data f.ino).length = st.currentOffset
  /-- It is one of the segments. -/
  current : st.currentSegment < st.count
  /-- After a compaction the store has gone on to another segment than 0. -/
  moved : compacted → 0 < st.currentSegment
  /-- The segments behind it are not there. -/
  above : ∀ s, st.currentSegment < s → s < st.count → fs.dir (st.segmentName s) = none

section sized

open Env

variable {st : Store} {fs : FileSystem} {compacted : Prop}

/-- The number of segments is the same. -/
theorem Store.Steady.count {st' : Store} (h : st.Steady st') : st'.count = st.count := by
  rw [Store.count, h.segmentCount, Store.count]

/-- So are their names. -/
theorem Store.Steady.segmentName {st' : Store} (h : st.Steady st') (s : Nat) :
    st'.segmentName s = st.segmentName s := by
  rw [Store.segmentName, h.basePrefix]

/-- The members that matter are kept by nearly everything. -/
theorem Store.Idle.steady {st' : Store} (h : st.Idle) (hs : st.Steady st') (hbuf : st'.writeBuf = []) :
    st'.Idle where
  valid := hs.valid.trans h.valid
  names := hs.basePrefix.symm ▸ h.names
  two_le := hs.count.symm ▸ h.two_le
  room := hs.segmentSize.symm ▸ h.room
  cool := hs.compactInCooldown.trans h.cool
  buf := hbuf

/-- Opening the first segment that is not there. -/
theorem Store.Resting.openSegment (h : st.Resting compacted fs) {s : Nat} (hs : s < st.count)
    (hmoved : compacted → 0 < s)
    (habove : ∀ s', s ≤ s' → s' < st.count → fs.dir (st.segmentName s') = none) :
    plain.wp (st.openSegment s) (fun r fs' => r.2.Sized compacted fs' ∧ r.2.currentOffset = 0) fs := by
  have hlt (s' : Nat) (hs' : s' < st.count) : s' < 256 := Nat.lt_trans hs' st.segmentCount.toNat_lt
  rw [Store.openSegment]
  refine wp_closeFile (plain_reads _) ?_
  refine wp_openKeep (a := .segment s) (hlt s hs) rfl rfl (plain_ok _ _) fun fs1 i hframe hi hdata _ => ?_
  have hnil : fs1.data i = [] := by
    rw [hdata, FileSystem.file_eq_none.2 (habove s (Nat.le_refl s) hs)]
    rfl
  refine Env.wp_call trivial id fun _ => Env.wp_call trivial id fun _ => ?_
  have hother (s' : Nat) (hs' : s' < st.count) (hne : s' ≠ s) :
      ¬Names st.basePrefix (· = .segment s) (st.segmentName s') :=
    h.names.not_mem (.segment s') (hlt s' hs') fun he => hne (by injection he)
  show Store.Sized { st with
      activeFile := some ⟨i, (fs1.data i).length, .readAppend⟩
      currentSegment := s
      currentOffset := wrap32 (fs1.data i).length } compacted fs1 ∧ wrap32 (fs1.data i).length = 0
  rw [hnil]
  refine ⟨{
    valid := h.valid
    names := h.names
    two_le := h.two_le
    room := h.room
    cool := h.cool
    buf := h.buf
    index := ?_
    respects := fun s' hs' hc => ?_
    active := ⟨_, rfl, rfl, hi, congrArg List.length hnil⟩
    current := hs
    moved := hmoved
    above := fun s' h1 h2 => ?_ }, rfl⟩
  · obtain ⟨f, hf, hm, hd⟩ := h.index
    exact ⟨f, hf, hm, (hframe.dir (h.names.not_mem .index trivial (by simp))).trans hd⟩
  · by_cases he : s' = s
    · subst he
      have hfile := FileSystem.file_eq_some hi
      rw [hnil] at hfile
      change ((fs1.file (st.segmentName s')).getD []).length ≤ _
      rw [hfile]
      exact Nat.zero_le _
    · change ((fs1.file (st.segmentName s')).getD []).length ≤ _
      rw [hframe.file (hother s' hs' he)]
      exact h.respects s' hs' hc
  · exact (hframe.dir (hother s' h2 (Nat.ne_of_gt h1))).trans (habove s' (Nat.le_of_lt h1) h2)

/-- After a compaction there is segment 0 only. -/
theorem Store.Resting.compact (h : st.Resting compacted fs) {now : UInt32} (done : Prop) (hdone : done) :
    plain.wp (st.compact now) (fun r fs' => r.1 = true ∧ r.2.Resting done fs' ∧
      ∀ s, 1 ≤ s → s < r.2.count → fs'.dir (r.2.segmentName s) = none) fs := by
  refine Prog.wp_mono (plain_compact h.names h.index) fun r fs1 hr => ?_
  obtain ⟨ok, st'⟩ := r
  obtain ⟨rfl, hsteady, hbuf, hindex, hfirst⟩ := hr
  have hnone (s : Nat) (h1 : 1 ≤ s) (hs : s < st'.count) : fs1.dir (st'.segmentName s) = none := by
    rw [hsteady.segmentName]
    exact hfirst.segment h1 (hsteady.count ▸ hs)
  refine ⟨rfl, {
    h.toIdle.steady hsteady (hbuf.trans h.buf) with
    index := hindex
    respects := fun s hs hc => ?_ }, hnone⟩
  have h0 : s ≠ 0 := hc.resolve_right (not_not.2 hdone)
  rw [FileSystem.file_eq_none.2 (hnone s (Nat.pos_of_ne_zero h0) hs)]
  exact Nat.zero_le _

/-- The threshold keeps the invariant. -/
theorem Store.Sized.compactIfThresholdLog (h : st.Sized compacted fs) {now : UInt32} :
    plain.wp (st.compactIfThresholdLog now)
      (fun r fs' => r.1.Sized (compacted ∨ r.2 = some true) fs') fs := by
  rw [Store.compactIfThresholdLog]
  split
  · refine Env.wp_seq (h.compact (compacted ∨ some true = some true) (.inr rfl)) fun r fs1 hr => ?_
    obtain ⟨ok, st'⟩ := r
    obtain ⟨rfl, hrest, hnone⟩ := hr
    have hone : Store.Resting { st' with currentSegment := 1 } _ fs1 := { hrest with }
    exact Env.wp_seq (hone.openSegment (Nat.lt_of_lt_of_le Nat.one_lt_two hrest.two_le)
      (fun _ => Nat.one_pos) hnone) fun r fs2 hr => hr.1
  · simpa using h

/-- The rotation leaves room for a record, if one that finds room by its test fits. -/
theorem Store.Sized.rotateLog (h : st.Sized compacted fs) {clk : Clock} {writeSize length : Nat}
    (hlength : length ≤ headerSize + maxKeyLen + maxValueLen + commitSize)
    (hfits : st.HasRoom writeSize → st.currentOffset + length ≤ st.segmentSize.toNat) :
    plain.wp (st.rotateLog clk writeSize) (fun r fs' => r.1.2.Sized (compacted ∨ r.2 = some true) fs' ∧
      r.1.2.currentOffset + length ≤ r.1.2.segmentSize.toNat) fs := by
  have hcount : st.count < 256 := st.segmentCount.toNat_lt
  have hnext : wrap32 (st.currentSegment + 1) = st.currentSegment + 1 := by
    have := h.current
    exact wrap32_of_lt (by omega)
  -- a segment that is empty has room
  have fresh {st' : Store} {done : Prop} {fs' : FileSystem} (h' : st'.Sized done fs')
      (h0 : st'.currentOffset = 0) : st'.currentOffset + length ≤ st'.segmentSize.toNat := by
    rw [h0, Nat.zero_add]
    exact Nat.le_trans hlength h'.room
  rw [Store.rotateLog]
  split
  · next hroom => exact ⟨by simpa using h, hfits hroom⟩
  rw [flushBuffer_nil h.buf]
  refine Env.wp_pure_bind (wp_closeFile (plain_reads _) ?_)
  have hrest : Store.Resting { st with
      activeFile := none, currentSegment := wrap32 (st.currentSegment + 1) } compacted fs :=
    { h.toResting with }
  dsimp only
  split
  · -- the next segment is not there yet
    next hlt =>
    refine Env.wp_seq (hrest.openSegment hlt (fun _ => ?_) fun s h1 hs => h.above s ?_ hs)
      fun r fs1 hr => ⟨?_, fresh hr.1 hr.2⟩
    · show 0 < wrap32 (st.currentSegment + 1)
      omega
    · change wrap32 (st.currentSegment + 1) ≤ s at h1
      omega
    · simpa using hr.1
  split
  · next hcool =>
    exact absurd (hcool.1.symm.trans h.cool) (by simp)
  · refine Env.wp_seq (hrest.compact (compacted ∨ some true = some true) (.inr rfl))
      fun r fs1 hr => ?_
    obtain ⟨ok, st'⟩ := r
    obtain ⟨rfl, hrest', hnone⟩ := hr
    have hone : Store.Resting { st' with compactInCooldown := false, currentSegment := 1 } _ fs1 :=
      { hrest' with cool := rfl }
    exact Env.wp_seq (hone.openSegment (Nat.lt_of_lt_of_le Nat.one_lt_two hrest'.two_le)
      (fun _ => Nat.one_pos) hnone) fun r fs2 hr => ⟨hr.1, fresh hr.1 hr.2⟩

/-! ## The operations

A put rotates first if it has to, so that its record is appended behind the offset of a segment with
room, or of an empty one. -/

/-- The record of the operation fits behind the current offset: that of a put if there is room by the
test of `rotate_segment_if_needed`, that of a remove in any case. -/
def Update.Fits (st : Store) : Update → Prop
  | .put key data _ _ _ => key.bytes.length ≤ maxKeyLen → data.bytes.length ≤ maxValueLen →
    st.HasRoom data.bytes.length →
      st.currentOffset + (headerSize + key.bytes.length + data.bytes.length + commitSize)
        ≤ st.segmentSize.toNat
  | .remove key _ _ => key.bytes.length ≤ maxKeyLen →
    st.currentOffset + (headerSize + key.bytes.length + commitSize) ≤ st.segmentSize.toNat

instance (st : Store) : (u : Update) → Decidable (u.Fits st)
  | .put .. => inferInstanceAs (Decidable (_ → _ → _ → _))
  | .remove .. => inferInstanceAs (Decidable (_ → _))

/-- Nothing is demanded of the writes. -/
theorem plain_streams (i : Nat) (full : Bytes) : plain.Streams fs i full where
  write _ _ _ _ _ _ _ := plain_ok _ _
  flush _ _ _ _ := plain_ok _ _

/-- `persist_index_entry` writes to the index file. -/
theorem plain_persistIndexEntry {g : Handle} (hg : st.indexFile = some g) (hm : g.mode = .append)
    {key : Key} {seg off ts ttl : Nat} {priority : UInt8} :
    plain.wp (st.persistIndexEntry key seg off ts ttl priority) (fun r fs' => ∃ (g' : Handle) (x : Bytes),
      g'.ino = g.ino ∧ g'.mode = .append ∧ r = (true, { st with indexFile := some g' }) ∧
        fs' = fs.setData g.ino x) fs := by
  rw [Store.persistIndexEntry, hg]
  refine Prog.wp_bind.2 (wp_writeAll_ok (.inl (by rw [hm]; rfl)) (fun _ _ _ _ _ _ => trivial)
    (fun _ _ _ _ h => h) fun g' hi hm' _ => ?_)
  exact Env.wp_call trivial id fun _ => ⟨g', _, hi, hm'.trans hm, rfl, rfl⟩

/-- A record that fits is at the end of the active file, and its entry in the index file. -/
theorem Store.Sized.written {st' : Store} (h : st.Sized compacted fs) (hsteady : st.Steady st')
    (hcur : st'.currentSegment = st.currentSegment) (hbuf : st'.writeBuf = []) {f g : Handle}
    {bs x : Bytes} (hf : fs.dir (st.segmentName st.currentSegment) = some f.ino)
    (hlen : (fs.data f.ino).length = st.currentOffset) (hg : fs.dir st.indexName = some g.ino)
    (hactive : ∃ f', st'.activeFile = some f' ∧ f'.ino = f.ino ∧ f'.mode = .readAppend)
    (hindex : ∃ g', st'.indexFile = some g' ∧ g'.ino = g.ino ∧ g'.mode = .append)
    (hoff : st'.currentOffset = wrap32 (st.currentOffset + bs.length))
    (hfit : st.currentOffset + bs.length ≤ st.segmentSize.toNat) :
    st'.Sized compacted ((fs.setData f.ino (fs.data f.ino ++ bs)).setData g.ino x) := by
  have hlt (s : Nat) (hs : s < st.count) : s < 256 := Nat.lt_trans hs st.segmentCount.toNat_lt
  have hsize : st.segmentSize.toNat < 2 ^ 32 := st.segmentSize.toNat_lt
  -- the index file is none of the segments
  have hseg {s i : Nat} (hs : s < st.count) (hi : fs.dir (st.segmentName s) = some i) : i ≠ g.ino := by
    rintro rfl
    exact h.names.ne (a := .segment s) (hlt s hs) (b := .index) trivial (by simp) (fs.inj hi hg)
  generalize hfs' : (fs.setData f.ino (fs.data f.ino ++ bs)).setData g.ino x = fs'
  have hdir : fs'.dir = fs.dir := by
    rw [← hfs']
    rfl
  have hactiveData : (fs'.data f.ino).length = st.currentOffset + bs.length := by
    rw [← hfs', FileSystem.data_setData, if_neg (hseg h.current hf), FileSystem.data_setData_self,
      List.length_append, hlen]
  have hother {s i : Nat} (hs : s < st.count) (hi : fs.dir (st.segmentName s) = some i)
      (he : i ≠ f.ino) : fs'.data i = fs.data i := by
    rw [← hfs', FileSystem.data_setData, if_neg (hseg hs hi), FileSystem.data_setData, if_neg he]
  obtain ⟨f', hf', hfi, hfm⟩ := hactive
  obtain ⟨g', hg', hgi, hgm⟩ := hindex
  exact {
    h.toIdle.steady hsteady hbuf with
    index := by
      refine ⟨g', hg', hgm, ?_⟩
      rw [Store.indexName, hsteady.basePrefix, hgi, hdir]
      exact hg
    respects := fun s hs hc => by
      rw [hsteady.count] at hs
      rw [hsteady.segmentName, hsteady.segmentSize]
      have hle := h.respects s hs hc
      cases hi : fs.dir (st.segmentName s) with
      | none =>
        rw [FileSystem.file_eq_none.2 (hdir ▸ hi)]
        exact Nat.zero_le _
      | some i =>
        rw [FileSystem.file_eq_some hi] at hle
        rw [FileSystem.file_eq_some (hdir ▸ hi), Option.getD_some]
        by_cases he : i = f.ino
        · rw [he, hactiveData]
          exact hfit
        · rw [hother hs hi he]
          exact hle
    active := by
      refine ⟨f', hf', hfm, ?_, ?_⟩
      · rw [hcur, hsteady.segmentName, hfi, hdir]
        exact hf
      · rw [hfi, hactiveData, hoff, wrap32_of_lt (by omega)]
    current := by
      rw [hcur, hsteady.count]
      exact h.current
    moved := hcur.symm ▸ h.moved
    above := fun s h1 hs => by
      rw [hsteady.segmentName, hdir]
      exact h.above s (hcur ▸ h1) (hsteady.count ▸ hs) }

/-- With the record in the active file, its entry is written and the offset goes on. -/
theorem Store.Sized.persist (h : st.Sized compacted fs) {f f' : Handle} {bs : Bytes}
    (hdir : fs.dir (st.segmentName st.currentSegment) = some f.ino)
    (hlen : (fs.data f.ino).length = st.currentOffset) (hi : f'.ino = f.ino)
    (hm : f'.mode = .readAppend) (hfit : st.currentOffset + bs.length ≤ st.segmentSize.toNat)
    (idx : Index) (d : Nat) {key : Key} {seg off ts ttl : Nat} {priority : UInt8} :
    plain.wp (Store.persistIndexEntry { st with
        activeFile := some f'
        writeBuf := []
        index := idx
        deadSinceCompact := d } key seg off ts ttl priority)
      (fun r fs' => ∀ o, o = wrap32 (r.2.currentOffset + bs.length) →
        Store.Sized { r.2 with currentOffset := o } compacted fs')
      (fs.setData f.ino (fs.data f.ino ++ bs)) := by
  obtain ⟨g, hg, hgm, hgdir⟩ := h.index
  have hg' : Store.indexFile { st with
      activeFile := some f'
      writeBuf := []
      index := idx
      deadSinceCompact := d } = some g := hg
  refine Prog.wp_mono (plain_persistIndexEntry hg' hgm) ?_
  rintro _ _ ⟨g', x, hgi, hgm', rfl, rfl⟩ o rfl
  refine h.written ?_ ?_ ?_ hdir hlen hgdir ?_ ?_ ?_ hfit
  · exact ⟨rfl, rfl, rfl, rfl, rfl, rfl, rfl, rfl⟩
  · rfl
  · rfl
  · exact ⟨f', rfl, hi, hm⟩
  · exact ⟨g', rfl, hgi, hgm'⟩
  · rfl

/-- A put whose record fits. -/
theorem Store.Sized.put (h : st.Sized compacted fs) {clk : Clock} {key data : Buf} {ttl ts : UInt32}
    {priority : UInt8} (hfits : (Update.put key data ttl ts priority).Fits st) :
    plain.wp (st.updateHead clk (.put key data ttl ts priority))
      (fun r fs' => r.1.2.Sized (compacted ∨ r.2 = some true) fs') fs := by
  have same : st.Sized (compacted ∨ (none : Option Bool) = some true) fs := by simpa using h
  rw [Store.updateHead]
  split
  · exact same
  split
  · exact same
  split
  · exact same
  next hkey hdata =>
  have hkey := Nat.not_lt.1 hkey
  have hdata := Nat.not_lt.1 hdata
  refine Env.wp_seq (h.rotateLog (by omega) (hfits hkey hdata)) ?_
  rintro ⟨⟨b, st1⟩, rotated⟩ fs1 ⟨h1, hroom⟩
  obtain ⟨f, hf, hm, hdir, hlen⟩ := h1.active
  dsimp only at h1 hroom hf hdir hlen ⊢
  -- the four parts of the record go through the buffer
  refine Env.wp_seq (wp_append_streamed (.start hf hm h1.buf) (plain_streams _ _) (List.prefix_refl _))
    fun st2 fs2 h2 => ?_
  refine Env.wp_seq (wp_append_streamed h2 (plain_streams _ _) (List.prefix_refl _)) fun st3 fs3 h3 => ?_
  refine Env.wp_seq (wp_append_streamed h3 (plain_streams _ _) (List.prefix_refl _)) fun st4 fs4 h4 => ?_
  refine Env.wp_seq (wp_append_streamed h4 (plain_streams _ _) (List.prefix_refl _)) fun st5 fs5 h5 => ?_
  refine Env.wp_seq (wp_flush_streamed h5 (plain_streams _ _) (List.prefix_refl _)) ?_
  rintro _ _ ⟨f6, hi6, hm6, rfl, rfl⟩
  dsimp only
  rw [if_neg (by decide)]
  obtain ⟨d, hd⟩ := countDead_eq { st1 with activeFile := some f6, writeBuf := [] } key.bytes
  rw [hd]
  -- the entry goes into the index, and others may be evicted
  obtain ⟨n, idx, d', hprune, -⟩ := prune_spec (Store.indexInsert { st1 with
    activeFile := some f6
    writeBuf := []
    deadSinceCompact := d } key.bytes st1.currentSegment st1.currentOffset ts ttl.toNat priority)
  rw [prune_if_exceeds, hprune]
  have hcommit : commitBytes.length = commitSize := length_toLE ..
  have hlength : ([] ++ (putHeader key data ttl ts priority).encode ++ key.bytes ++ data.bytes ++
      commitBytes).length = headerSize + key.bytes.length + data.bytes.length + commitSize := by
    simp only [List.length_append, List.length_nil, RecordHeader.length_encode, hcommit]
    omega
  refine Env.wp_seq (h1.persist hdir hlen hi6 hm6 (by rw [hlength]; exact hroom) idx d')
    fun r fs7 hr => hr _ ?_
  rw [hlength, ← Nat.add_assoc, ← Nat.add_assoc, ← Nat.add_assoc]

/-- A remove stays in the segment. -/
theorem Store.Sized.remove (h : st.Sized compacted fs) {clk : Clock} {key : Buf} {junkTtl : UInt32}
    {junkPriority : UInt8} (hfits : (Update.remove key junkTtl junkPriority).Fits st) :
    plain.wp (st.updateHead clk (.remove key junkTtl junkPriority))
      (fun r fs' => r.1.2.Sized compacted fs' ∧ r.2 = none) fs := by
  rw [Store.updateHead]
  split
  · exact ⟨h, rfl⟩
  split
  · exact ⟨h, rfl⟩
  next hkey =>
  have hroom := hfits (Nat.not_lt.1 hkey)
  obtain ⟨f, hf, hm, hdir, hlen⟩ := h.active
  dsimp only
  -- the three parts of the record go through the buffer
  refine Env.wp_seq (wp_append_streamed (.start hf hm h.buf) (plain_streams _ _) (List.prefix_refl _))
    fun st2 fs2 h2 => ?_
  refine Env.wp_seq (wp_append_streamed h2 (plain_streams _ _) (List.prefix_refl _)) fun st3 fs3 h3 => ?_
  refine Env.wp_seq (wp_append_streamed h3 (plain_streams _ _) (List.prefix_refl _)) fun st4 fs4 h4 => ?_
  refine Env.wp_seq (wp_flush_streamed h4 (plain_streams _ _) (List.prefix_refl _)) ?_
  rintro _ _ ⟨f5, hi5, hm5, rfl, rfl⟩
  dsimp only
  obtain ⟨d, hd⟩ := countDead_eq { st with activeFile := some f5, writeBuf := [] } key.bytes
  rw [hd]
  have hcommit : commitBytes.length = commitSize := length_toLE ..
  have hlength : ([] ++ (removeHeader key junkTtl junkPriority).encode ++ key.bytes ++
      commitBytes).length = headerSize + key.bytes.length + commitSize := by
    simp only [List.length_append, List.length_nil, RecordHeader.length_encode, hcommit]
    omega
  refine Env.wp_seq (h.persist hdir hlen hi5 hm5 (by rw [hlength]; exact hroom) _ d)
    fun r fs6 hr => ⟨hr _ ?_, rfl⟩
  rw [hlength, ← Nat.add_assoc, ← Nat.add_assoc]

/-- An operation whose record fits, up to its end. -/
theorem Store.Sized.updateHead (h : st.Sized compacted fs) {clk : Clock} {u : Update}
    (hfits : u.Fits st) : plain.wp (st.updateHead clk u)
      (fun r fs' => r.1.2.Sized (compacted ∨ r.2 = some true) fs') fs := by
  cases u with
  | put key data ttl ts priority => exact h.put hfits
  | remove key junkTtl junkPriority =>
    refine Prog.wp_mono (h.remove hfits) ?_
    rintro ⟨_, _⟩ fs' ⟨h', rfl⟩
    simpa using h'

/-- **One operation** whose record fits. -/
theorem Store.Sized.updateLog (h : st.Sized compacted fs) {clk : Clock} {u : Update}
    (hfits : u.Fits st) : plain.wp (st.updateLog clk u)
      (fun r fs' => r.1.2.Sized (compacted ∨ r.2.1 = some true ∨ r.2.2 = some true) fs') fs := by
  rw [Store.updateLog]
  refine Env.wp_seq (h.updateHead hfits) ?_
  rintro ⟨⟨goes, st1⟩, rotated⟩ fs1 h1
  cases goes with
  | false => simpa using h1
  | true =>
    refine Env.wp_seq h1.compactIfThresholdLog fun r fs2 hr => ?_
    have hr := hr
    rwa [or_assoc] at hr

/-! ## Opening

A run starts from no files, and `init` opens segment 0. -/

/-- There is no segment file. -/
def Store.NoSegments (st : Store) (fs : FileSystem) : Prop :=
  ∀ s < st.count, fs.dir (st.segmentName s) = none

/-- What concerns no segment leaves it so. -/
theorem Store.NoSegments.spared {α : Type} {p : FsM α} (h : st.NoSegments fs)
    (hp : p.calls (Call.Spares fun q => ∃ s < st.count, q = st.segmentName s)) :
    plain.wp p (fun _ fs' => st.NoSegments fs') fs :=
  Prog.wp_mono (plain_spares hp) fun _ _ hs s hlt => (hs _ ⟨s, hlt, rfl⟩).trans (h s hlt)

/-- The index file is no segment. -/
theorem Store.Idle.index_not_segment (h : st.Idle) : ¬∃ s < st.count, st.indexName = st.segmentName s := by
  rintro ⟨s, hs, he⟩
  exact h.names.ne (a := .index) trivial (b := .segment s) (Nat.lt_trans hs st.segmentCount.toNat_lt)
    (by simp) he

/-- Where there is no segment, the search for the last one ends with segment 0. -/
theorem Store.NoSegments.resumeLoop {n i : Nat} (h : st.NoSegments fs) (hle : i + n ≤ st.count) (r : Nat) :
    plain.wp (st.resumeLoop n i r) (fun x fs' => x = r ∧ fs' = fs) fs := by
  induction n generalizing i with
  | zero => exact ⟨rfl, rfl⟩
  | succ n ih =>
    rw [Store.resumeLoop]
    refine wp_openRead (plain_reads _) (fun _ => ih (by omega)) fun j hj _ => ?_
    cases (h i (by omega)).symm.trans hj

/-- The end of `init`. -/
theorem Store.Idle.initTail (h : st.Idle) (hnone : st.NoSegments fs) :
    plain.wp st.initTail (fun x fs' => x.2.Sized False fs') fs := by
  have hindex := h.index_not_segment
  obtain ⟨n, idx, d, hprune, -⟩ := prune_spec st
  have opened (fs : FileSystem) (hnone : st.NoSegments fs) : plain.wp
      (Store.openFiles { st with index := idx, deadSinceCompact := d })
      (fun x fs' => x.2.Sized False fs') fs := by
    rw [Store.openFiles, Store.openIndexForAppend]
    refine Prog.wp_bind.2 (wp_openKeep (a := .index) trivial rfl rfl (plain_ok _ _)
      fun fs1 i hframe hi _ _ => ?_)
    have hnone1 : Store.NoSegments { st with
        index := idx, deadSinceCompact := d, indexFile := some ⟨i, 0, .append⟩ } fs1 := fun s hs => by
      refine (hframe.dir ?_).trans (hnone s hs)
      exact h.names.not_mem (.segment s) (Nat.lt_trans hs st.segmentCount.toNat_lt) (by simp)
    have hrest : Store.Resting { st with
        index := idx, deadSinceCompact := d, indexFile := some ⟨i, 0, .append⟩ } False fs1 :=
      { h with
        index := ⟨_, rfl, rfl, hi⟩
        respects := fun s hs _ => by
          rw [FileSystem.file_eq_none.2 (hnone1 s hs)]
          exact Nat.zero_le _ }
    refine Env.wp_ret (Env.wp_seq (hnone1.resumeLoop (Nat.le_of_eq (Nat.zero_add _)) 0) ?_)
    rintro _ _ ⟨rfl, rfl⟩
    exact Env.wp_seq (hrest.openSegment (Nat.lt_of_lt_of_le Nat.zero_lt_two h.two_le) False.elim
      fun s _ hs => hnone1 s hs) fun r fs2 hr => hr.1
  rw [Store.initTail, hprune]
  dsimp only
  split
  · refine Env.wp_seq (hnone.spared (p := removeFile st.indexName) ⟨hindex, fun _ => trivial⟩)
      fun _ fs1 h1 => ?_
    exact Env.wp_seq (h1.spared (spares_writeIndexBulk hindex)) fun _ fs2 h2 => opened fs2 h2
  · exact opened fs hnone

/-- Opening an object where there are no files. -/
theorem Store.Idle.initFiles (h : st.Idle)
    (hfresh : ∀ a : StoreFile, a.Valid → fs.dir (storePath st.basePrefix a) = none) :
    plain.wp (st.initFiles false) (fun x fs' => x.2.Sized False fs') fs := by
  have hnone : st.NoSegments fs :=
    fun s hs => hfresh (.segment s) (Nat.lt_trans hs st.segmentCount.toNat_lt)
  have hindex := h.index_not_segment
  rw [Store.initFiles, if_neg Bool.false_ne_true]
  -- there is nothing to recover
  have hrecover : plain.wp st.recoverIfNeeded (fun x fs' => x = st ∧ fs' = fs) fs := by
    rw [Store.recoverIfNeeded]
    refine wp_openRead (plain_reads _) (fun _ => ⟨rfl, rfl⟩) fun i hi _ => ?_
    cases (hfresh .journal trivial).symm.trans hi
  -- the index is rebuilt from no segment
  have hrebuild : plain.wp st.rebuildIndexFromSegments
      (fun st' fs' => st'.Idle ∧ st'.NoSegments fs') fs := by
    rw [Store.rebuildIndexFromSegments]
    refine Env.wp_seq (hnone.spared (spares_rebuildLoop _ _ _)) fun idx fs1 h1 => ?_
    refine Env.wp_seq (h1.spared (spares_closeFile _)) fun _ fs2 h2 => ?_
    refine Env.wp_seq (h2.spared (p := removeFile _) ⟨hindex, fun _ => trivial⟩) fun _ fs3 h3 => ?_
    exact Env.wp_seq (h3.spared (@spares_writeIndexBulk _ { st with index := idx } hindex))
      fun _ fs4 h4 => ⟨{ h with }, h4⟩
  refine Env.wp_pure_bind (Env.wp_seq hrecover ?_)
  rintro _ _ ⟨rfl, rfl⟩
  rw [Store.initIndex]
  refine Prog.wp_bind.2 (wp_loadIndex_missing (plain_reads _) (hfresh .index trivial) ?_)
  dsimp only
  rw [if_neg Bool.false_ne_true]
  exact Env.wp_seq hrebuild fun st' fs1 h1 => h1.1.initTail h1.2

end sized

/-! ## Runs

The same runs as in `Cooling.lean`, without faults. -/

/-- `_segment_size` after `init`. -/
def Setup.size (su : Setup) : UInt32 :=
  if su.segmentSize ≠ 0 then su.segmentSize else su.objectSize

/-- The floor under the size of a segment: a key, a value, a header and a commit of the largest size, and
the write buffer. -/
def sizeFloor : Nat := maxValueLen + maxKeyLen + headerSize + commitSize + writeBufferSize

/-- The files have different names, there are three segments or more, and they are larger than the
floor. -/
structure Setup.Roomy (su : Setup) : Prop where
  /-- Different files have different names. -/
  names : NamesOk su.basePrefix
  /-- There are three segments or more. -/
  segments : 3 ≤ su.segments.toNat
  /-- Each is larger than the floor. -/
  size : sizeFloor < su.size.toNat

/-- A store that has just been opened. -/
theorem Setup.plain_start {su : Setup} (hsu : su.Roomy) (order : IterationOrder) {fs : FileSystem}
    (hfresh : su.Fresh fs) :
    Env.plain.wp (su.start order) (fun st fs' => st.Sized False fs') fs := by
  have hidle : Store.Idle ((su.object order).configured su.pre su.segmentSize su.segmentCount) :=
    { valid := rfl
      names := hsu.names
      two_le := Nat.le_of_succ_le hsu.segments
      room := by
        have hsize := hsu.size
        have hfloor : sizeFloor = headerSize + maxKeyLen + maxValueLen + commitSize + writeBufferSize := by
          decide
        change _ ≤ su.size.toNat
        omega
      cool := rfl
      buf := rfl }
  rw [Setup.start]
  exact Env.wp_seq (wp_init_configured (fun _ => ⟨trivial, id⟩) (hidle.initFiles hfresh))
    fun x fs' hx => Env.wp_ret hx

/-- The state after a run. -/
def Store.runState {σ : Type} (h : (c : Call) → σ → c.Reply × σ) :
    List TimedUpdate → Store → σ → Store × σ
  | [], st, s => (st, s)
  | u :: us, st, s => Store.runState h us (st.stepLog h u s).1.1 (st.stepLog h u s).1.2

/-- Every operation of the run finds the store in a state in which its record fits. -/
def Store.AllFit : List TimedUpdate → Store → FileSystem → Prop
  | [], _, _ => True
  | u :: us, st, fs => u.update.Fits st ∧
      Store.AllFit us (st.stepLog posix u fs).1.1 (st.stepLog posix u fs).1.2

instance decidableAllFit : (us : List TimedUpdate) → (st : Store) → (fs : FileSystem) →
    Decidable (st.AllFit us fs)
  | [], _, _ => .isTrue trivial
  | u :: us, st, fs =>
    have := decidableAllFit us (st.stepLog posix u fs).1.1 (st.stepLog posix u fs).1.2
    inferInstanceAs (Decidable (_ ∧ _))

/-- One of the attempts has succeeded. -/
def Compacted (log : List Attempt) : Prop := ∃ a ∈ log, a.ok = true

instance (log : List Attempt) : Decidable (Compacted log) := inferInstanceAs (Decidable (∃ a ∈ log, _))

/-- The attempts of a longer run. -/
theorem compacted_append {log log' : List Attempt} :
    Compacted (log ++ log') ↔ Compacted log ∨ Compacted log' := by
  simp only [Compacted, List.mem_append, or_and_right, exists_or]

/-- One attempt. -/
theorem compacted_reported {started returned : Nat} {report : Option Bool} :
    Compacted (Attempt.reported started returned report) ↔ report = some true := by
  cases report with
  | none => simp [Compacted, Attempt.reported]
  | some ok => simp [Compacted, Attempt.reported]

section runs

variable {st : Store} {fs : FileSystem} {log : List Attempt}

/-- One operation of a run. -/
theorem Store.Sized.step (h : st.Sized (Compacted log) fs) {u : TimedUpdate} (hfits : u.update.Fits st) :
    (st.stepLog posix u fs).1.1.Sized (Compacted (log ++ (st.stepLog posix u fs).2))
      (st.stepLog posix u fs).1.2 := by
  have hstep := @Env.plain_exec _ (st.updateLog u.clock u.update) (fun r fs' => Store.Sized r.1.2
    (Compacted log ∨ r.2.1 = some true ∨ r.2.2 = some true) fs') fs (h.updateLog hfits)
  rw [compacted_append]
  rw [Store.stepLog, Moments.attempts]
  dsimp only
  rwa [compacted_append, compacted_reported, compacted_reported]

/-- A run. -/
theorem Store.Sized.run {us : List TimedUpdate} (h : st.Sized (Compacted log) fs) (hfit : st.AllFit us fs) :
    (Store.runState posix us st fs).1.Sized (Compacted (log ++ st.runLog posix us fs))
      (Store.runState posix us st fs).2 := by
  induction us generalizing st fs log with
  | nil =>
    rw [Store.runLog, List.append_nil]
    exact h
  | cons u us ih =>
    have hrun := ih (h.step hfit.1) hfit.2
    rwa [List.append_assoc] at hrun

end runs

namespace Setup

/-- The store and the files after a new object is opened and the operations are performed. -/
def updated (su : Setup) (order : IterationOrder) (fs : FileSystem) (us : List TimedUpdate) :
    Store × FileSystem :=
  let r := Prog.exec posix (su.start order) fs
  Store.runState posix us r.1 r.2

/-- The attempts at a compaction that the operations make. -/
def attempts (su : Setup) (order : IterationOrder) (fs : FileSystem) (us : List TimedUpdate) :
    List Attempt :=
  let r := Prog.exec posix (su.start order) fs
  r.1.runLog posix us r.2

/-- Every operation appends a record that fits. -/
def AllFit (su : Setup) (order : IterationOrder) (fs : FileSystem) (us : List TimedUpdate) : Prop :=
  let r := Prog.exec posix (su.start order) fs
  r.1.AllFit us r.2

instance (su : Setup) (order : IterationOrder) (fs : FileSystem) (us : List TimedUpdate) :
    Decidable (su.AllFit order fs us) :=
  inferInstanceAs (Decidable (Store.AllFit _ _ _))

/-- In the end no segment file is larger than `segment_size`, but a segment 0 that a compaction has
written. -/
def RespectsSize (su : Setup) (order : IterationOrder) (fs : FileSystem) (us : List TimedUpdate) : Prop :=
  (su.updated order fs us).1.Respects (Compacted (su.attempts order fs us)) (su.updated order fs us).2

instance (su : Setup) (order : IterationOrder) (fs : FileSystem) (us : List TimedUpdate) :
    Decidable (su.RespectsSize order fs us) :=
  inferInstanceAs (Decidable (Store.Respects _ _ _))

end Setup

/-- **Segments respect their size** in every run of puts and removes on new files in which every put that
finds room by the test of `rotate_segment_if_needed`, and every remove, appends a record that fits. -/
theorem segments_respect_size {su : Setup} (hsu : su.Roomy) (order : IterationOrder) {fs : FileSystem}
    (hfresh : su.Fresh fs) {us : List TimedUpdate} (hfit : su.AllFit order fs us) :
    su.RespectsSize order fs us := by
  have hstart := Env.plain_exec (Setup.plain_start hsu order hfresh)
  have hnone : Compacted [] = False := eq_false (by simp [Compacted])
  rw [← hnone] at hstart
  exact (hstart.run hfit).respects

/-! ## Fixed runs

Segments of the smallest size that the condition allows. -/

/-- A put of zeros. -/
def TimedUpdate.zeros (key : Bytes) (length : Nat) : TimedUpdate where
  update := .put (.at key) (.at (List.replicate length 0)) 0 0 0
  moments := ⟨0, 0, 0, 0, 0, 0⟩
  time := 0

/-- Three segments that are just larger than the floor. -/
def tightSetup : Setup := ⟨['a'], 1626, 3, 0, 0, 0, 0⟩

/-- It is roomy enough. -/
theorem tightSetup_roomy : tightSetup.Roomy where
  names := namesOk_of_length_le (by decide)
  segments := by decide
  size := by decide

/-- The second put of the key starts a compaction, and the store goes on in segment 1.  What is put then
fills it to the last byte. -/
def putsAgain : List TimedUpdate :=
  [.zeros [1] 0, .zeros [1] 0, .zeros [2] 1024, .zeros (List.replicate 11 3) 540]

theorem segments_respect_size_again :
    Compacted (tightSetup.attempts .recent .empty putsAgain) ∧
      (((tightSetup.updated .recent .empty putsAgain).2.file (storePath ['a'] (.segment 1))).map List.length
        = some 1626) ∧
      tightSetup.RespectsSize .recent .empty putsAgain :=
  ⟨by decide +kernel, by decide +kernel,
    segments_respect_size tightSetup_roomy .recent (fun _ _ => rfl) (by decide +kernel)⟩

/-- There is room for the second value, but not for its key. -/
def longKey : List TimedUpdate := [.zeros [1] 1024, .zeros (List.replicate 64 2) 540]

/-- The segment is all but full when a key is removed that is not there. -/
def lateRemove : List TimedUpdate :=
  [.zeros [1] 1024, .zeros [2] 540,
    { update := .remove (.at [3]) 0 0, moments := ⟨0, 0, 0, 0, 0, 0⟩, time := 0 }]

theorem segments_outgrow_size :
    (tightSetup.Roomy ∧ tightSetup.Fresh .empty) ∧
      ¬tightSetup.RespectsSize .recent .empty longKey ∧
      ¬tightSetup.RespectsSize .recent .empty lateRemove :=
  ⟨⟨tightSetup_roomy, fun _ _ => rfl⟩, by decide +kernel, by decide +kernel⟩

end MicroStore
