import MicroStore.Steady

/-!
# What the operations do not touch

Which files an operation makes, removes or renames can be read off its calls, whatever the filesystem
answers: it opens, removes and renames the files of its own store, and of the segments those below the
count only.  So a name that belongs to none of these means the same before and after.

## What is here

* `Call.Spares S` — the call neither makes nor removes nor replaces a file of a name in `S`.  A program of
  such calls leaves the directory alone there (`plain_spares`).
* `Store.Avoids S` — none of the names in `S` is the index file, the journal, `compact.tmp` or a segment
  below the count.  Every part of every operation then spares `S`, from `spares_closeFile` up to
  `spares_put` and `spares_init`.
* `Store.NoneBeyond` — there is no segment file at or beyond the count.  **It stays that way whatever is
  done with the store** (`Store.NoneBeyond.spared`), given two segments: with one, the store goes on in
  segment 1 after a compaction.

The configuration has to be followed through the operations, since the names are computed from it; that
is what the lemmas of `Steady.lean` are for.
-/

set_option autoImplicit false

namespace MicroStore

open Prog

/-! ## Calls that leave a name alone -/

/-- The call does not make, remove or replace a file of these names. -/
def Call.Spares (S : Path → Prop) : Call → Prop
  | .open p mode => ¬S p ∨ mode.creates = false
  | .remove p => ¬S p
  | .rename p p' => ¬S p ∧ ¬S p'
  | _ => True

theorem Call.Spares.dir {S : Path → Prop} {c : Call} (h : c.Spares S) (fs : FileSystem) {q : Path}
    (hq : S q) : (posix c fs).2.dir q = fs.dir q := by
  have ne {p : Path} (hp : ¬S p) : q ≠ p := fun he => hp (he ▸ hq)
  cases c with
  | «open» p mode =>
    rw [posix]
    cases hp : fs.dir p with
    | some i =>
      dsimp only
      split
      · rfl
      · rfl
    | none =>
      dsimp only
      split
      · next hc =>
        have hp : ¬S p := h.resolve_right fun hf => by simp [hf] at hc
        exact if_neg (ne hp)
      · rfl
  | write f bs =>
    rw [posix]
    split
    · rfl
    split
    · rfl
    · rfl
  | remove p => exact if_neg (ne h)
  | rename p p' =>
    rw [posix]
    split
    · dsimp only
      split
      · rfl
      · show (fs.move p p').dir q = fs.dir q
        rw [FileSystem.dir_move, if_neg (ne h.2), if_neg (ne h.1)]
    · rfl
  | seek f pos mode => cases mode <;> rfl
  | read | tell | flush | close | mkdir => rfl

/-- A program of such calls leaves the names alone. -/
theorem plain_spares {α : Type} {p : FsM α} {S : Path → Prop} {fs : FileSystem}
    (hp : p.calls (Call.Spares S)) :
    Env.plain.wp p (fun _ fs' => ∀ q, S q → fs'.dir q = fs.dir q) fs := by
  refine wp_of_calls (fun _ _ => trivial) (fun c s r s' hc hr hs q hq => ?_) hp fun _ _ => rfl
  have hrun : (r, s') = posix c s := hr.2.resolve_right fun h => h.1
  have hs' : s' = (posix c s).2 := congrArg Prod.snd hrun
  rw [hs', hc.dir s hq]
  exact hs q hq

section spares

variable {S : Path → Prop} {st : Store}

theorem spares_closeFile (f : File) : (closeFile f).calls (Call.Spares S) := by
  cases f with
  | none => trivial
  | some f => exact ⟨trivial, fun _ => trivial⟩

theorem spares_writeAll (f : Handle) (bss : List Bytes) :
    (f.writeAll bss).calls (Call.Spares S) := by
  induction bss generalizing f with
  | nil => trivial
  | cons bs bss ih =>
    rw [Handle.writeAll]
    exact calls_bind ⟨trivial, fun _ => trivial⟩ fun x => calls_bind (ih x.2) fun _ => trivial

theorem spares_writeJournal (h : ¬S st.journalName) (state : JournalState) (nextSeg valid : Nat) :
    (st.writeJournal state nextSeg valid).calls (Call.Spares S) := by
  rw [Store.writeJournal]
  refine calls_bind ⟨.inl h, fun _ => trivial⟩ fun file => ?_
  cases file with
  | none => trivial
  | some f =>
    exact calls_bind ⟨trivial, fun _ => trivial⟩ fun _ => calls_bind ⟨trivial, fun _ => trivial⟩
      fun _ => ⟨trivial, fun _ => trivial⟩

theorem spares_removeSegments (n i : Nat) (h : ∀ s, i ≤ s → s < i + n → ¬S (st.segmentName s)) :
    (st.removeSegments n i).calls (Call.Spares S) := by
  induction n generalizing i with
  | zero => trivial
  | succ n ih =>
    rw [Store.removeSegments]
    refine calls_bind ⟨h i (Nat.le_refl i) (by omega), fun _ => trivial⟩ fun _ => ?_
    exact ih (i + 1) fun s h1 h2 => h s (by omega) (by omega)

theorem spares_scanLoop (onDelete : Key → Index → Index) (seg fuel : Nat) (f : Handle) (off : Nat)
    (idx : Index) : (scanLoop onDelete seg fuel f off idx).calls (Call.Spares S) := by
  induction fuel generalizing f off idx with
  | zero => trivial
  | succ fuel ih =>
    rw [scanLoop]
    refine calls_bind ⟨trivial, fun _ => trivial⟩ fun _ => ?_
    dsimp only
    split
    · trivial
    split
    · trivial
    refine calls_bind ⟨trivial, fun _ => trivial⟩ fun _ => ?_
    split
    · trivial
    refine calls_bind ⟨trivial, fun _ => trivial⟩ fun _ => calls_bind ⟨trivial, fun _ => trivial⟩
      fun _ => ?_
    split
    · trivial
    split
    · trivial
    exact ih _ _ _

theorem spares_rebuildLoop (n seg : Nat) (idx : Index) :
    (st.rebuildLoop n seg idx).calls (Call.Spares S) := by
  induction n generalizing seg idx with
  | zero => trivial
  | succ n ih =>
    rw [Store.rebuildLoop]
    refine calls_bind ⟨.inr rfl, fun _ => trivial⟩ fun file => ?_
    cases file with
    | none => exact ih _ _
    | some f =>
      exact calls_bind (spares_scanLoop _ _ _ _ _ _) fun _ => calls_bind ⟨trivial, fun _ => trivial⟩
        fun _ => ih _ _

theorem spares_copyRecords (offsets : List Nat) (src outf : Handle) :
    (copyRecords offsets src outf).calls (Call.Spares S) := by
  induction offsets generalizing src outf with
  | nil => trivial
  | cons off offsets ih =>
    rw [copyRecords]
    refine calls_bind ⟨trivial, fun _ => trivial⟩ fun _ => calls_bind ⟨trivial, fun _ => trivial⟩
      fun _ => ?_
    dsimp only
    split
    · exact ih _ _
    split
    · exact ih _ _
    refine calls_bind ⟨trivial, fun _ => trivial⟩ fun y => ?_
    split
    · exact ih _ _
    -- what is done with the value, whether it is read or empty
    have copied (x : Bytes × Handle) (length expected : Nat) (bss : List Bytes) :
        (if x.1.length ≠ length then copyRecords offsets x.2 outf else do
          let z ← outf.writeAll bss
          if z.1 ≠ expected then pure (false, x.2, z.2)
          else copyRecords offsets x.2 z.2 : FsM _).calls (Call.Spares S) := by
      split
      · exact ih _ _
      refine calls_bind (spares_writeAll _ _) fun _ => ?_
      split
      · trivial
      · exact ih _ _
    split
    · exact calls_bind ⟨trivial, fun _ => trivial⟩ fun x => copied x _ _ _
    · exact copied ([], y.2) _ _ _

theorem spares_compactLoop (hj : ¬S st.journalName) (now : UInt32) (n i : Nat) (outf : Handle)
    (h : ∀ s, i ≤ s → s < i + n → ¬S (st.segmentName s)) :
    (st.compactLoop now n i outf).calls (Call.Spares S) := by
  induction n generalizing i outf with
  | zero => trivial
  | succ n ih =>
    rw [Store.compactLoop]
    have rest (x : Bool × Handle) : (if !x.1 then pure (false, i, x.2) else do
          x.2.flush
          let validSize ← x.2.tell
          st.writeJournal .compacting (i + 1) validSize
          let _ ← removeFile (st.segmentName i)
          st.compactLoop now n (i + 1) x.2 : FsM (Bool × Nat × Handle)).calls (Call.Spares S) := by
      split
      · trivial
      · refine calls_bind ⟨trivial, fun _ => trivial⟩ fun _ => calls_bind ⟨trivial, fun _ => trivial⟩
          fun _ => calls_bind (spares_writeJournal hj _ _ _) fun _ =>
            calls_bind ⟨h i (Nat.le_refl i) (by omega), fun _ => trivial⟩ fun _ => ?_
        exact ih (i + 1) x.2 fun s h1 h2 => h s (by omega) (by omega)
    dsimp only
    split
    · exact rest (true, outf)
    refine calls_bind ⟨.inr rfl, fun _ => trivial⟩ fun file => ?_
    cases file with
    | none => exact rest (true, outf)
    | some src =>
      exact calls_bind (spares_copyRecords _ src outf) fun x =>
        calls_bind ⟨trivial, fun _ => trivial⟩ fun _ => rest (x.1, x.2.2)

theorem spares_bulkLoop (items : List IndexItem) (f : Handle) :
    (Store.bulkLoop items f).calls (Call.Spares S) := by
  induction items generalizing f with
  | nil => trivial
  | cons it items ih =>
    obtain ⟨key, v⟩ := it
    rw [Store.bulkLoop]
    exact calls_bind (spares_writeAll _ _) fun x => ih x.2

theorem spares_writeIndexBulk (h : ¬S st.indexName) :
    st.writeIndexBulk.calls (Call.Spares S) := by
  rw [Store.writeIndexBulk]
  refine calls_bind ⟨.inl h, fun _ => trivial⟩ fun file => ?_
  cases file with
  | none => trivial
  | some f =>
    exact calls_bind (spares_bulkLoop _ f) fun _ => calls_bind ⟨trivial, fun _ => trivial⟩
      fun _ => calls_bind ⟨trivial, fun _ => trivial⟩ fun _ => trivial

end spares

section operations

variable {S : Path → Prop} {st : Store}

/-- None of these names is one of the files the store works on. -/
structure Store.Avoids (st : Store) (S : Path → Prop) : Prop where
  /-- No segment is one of them. -/
  segment : ∀ s < st.count, ¬S (st.segmentName s)
  /-- Nor is the index. -/
  index : ¬S st.indexName
  /-- The journal. -/
  journal : ¬S st.journalName
  /-- Or the file a compaction writes. -/
  tmp : ¬S st.tmpName

/-- The store has the same file names and the same number of segments. -/
def Store.SameFiles (st st' : Store) : Prop :=
  st'.basePrefix = st.basePrefix ∧ st'.segmentCount = st.segmentCount

theorem Store.Steady.sameFiles {st' : Store} (h : st.Steady st') : st.SameFiles st' :=
  ⟨h.basePrefix, h.segmentCount⟩

theorem Store.SameFiles.trans {st' st'' : Store} (h : st.SameFiles st') (h' : st'.SameFiles st'') :
    st.SameFiles st'' := ⟨h'.1.trans h.1, h'.2.trans h.2⟩

theorem Store.SameFiles.count {st' : Store} (h : st.SameFiles st') : st'.count = st.count := by
  rw [Store.count, h.2, Store.count]

theorem Store.Avoids.same {st' : Store} (ha : st.Avoids S) (h : st.SameFiles st') : st'.Avoids S := by
  obtain ⟨hpre, hcount⟩ := h
  constructor
  · intro s hs
    rw [Store.segmentName, hpre]
    exact ha.segment s (by rwa [Store.count, hcount] at hs)
  · rw [Store.indexName, hpre]
    exact ha.index
  · rw [Store.journalName, hpre]
    exact ha.journal
  · rw [Store.tmpName, hpre]
    exact ha.tmp

/-! ## The parts of an operation -/

/-- The last segment is below the count, unless there is none. -/
theorem lastSegment_lt (h : 2 ≤ st.count) : st.lastSegment < st.count := by
  have hlt : st.count < 256 := st.segmentCount.toNat_lt
  rw [Store.lastSegment, wrap32]
  omega

theorem spares_flushBuffer : st.flushBuffer.calls (Call.Spares S) := by
  rw [Store.flushBuffer]
  split
  · trivial
  split
  · trivial
  · exact ⟨trivial, fun _ => ⟨trivial, fun _ => trivial⟩⟩

theorem spares_appendBuffer (data : Bytes) : (st.appendBuffer data).calls (Call.Spares S) := by
  rw [Store.appendBuffer]
  generalize data.length = fuel
  induction fuel generalizing st data with
  | zero => trivial
  | succ fuel ih =>
    rw [Store.appendLoop]
    split
    · trivial
    dsimp only
    generalize (if data.length < writeBufferSize - st.writeBuf.length then data.length
      else writeBufferSize - st.writeBuf.length) = n
    split
    · exact calls_bind spares_flushBuffer fun r => ih _
    · exact ih _

theorem spares_persistIndexEntry {key : Key} {seg off ts ttl : Nat} {priority : UInt8} :
    (st.persistIndexEntry key seg off ts ttl priority).calls (Call.Spares S) := by
  rw [Store.persistIndexEntry]
  split
  · trivial
  · exact calls_bind (spares_writeAll _ _) fun _ => ⟨trivial, fun _ => trivial⟩

theorem spares_openSegment (ha : st.Avoids S) {id : Nat} (hid : id < st.count) :
    (st.openSegment id).calls (Call.Spares S) := by
  rw [Store.openSegment]
  refine calls_bind (spares_closeFile _) fun _ => calls_bind ⟨.inl (ha.segment id hid), fun _ => trivial⟩
    fun file => ?_
  cases file with
  | none => trivial
  | some f => exact ⟨trivial, fun _ => ⟨trivial, fun _ => trivial⟩⟩

theorem spares_openIndexForAppend (ha : st.Avoids S) : st.openIndexForAppend.calls (Call.Spares S) :=
  ⟨.inl ha.index, fun _ => trivial⟩

theorem spares_rewriteIndex (ha : st.Avoids S) : st.rewriteIndex.calls (Call.Spares S) := by
  rw [Store.rewriteIndex]
  refine calls_bind (spares_closeFile _) fun _ => calls_bind ⟨ha.index, fun _ => trivial⟩ fun _ => ?_
  refine calls_bind (spares_writeIndexBulk ha.index) fun _ => ?_
  exact calls_bind (spares_openIndexForAppend ha) fun _ => trivial

theorem spares_finalizeCompaction (ha : st.Avoids S) (htwo : 2 ≤ st.count) :
    st.finalizeCompaction.calls (Call.Spares S) := by
  have hzero : ¬S (st.segmentName 0) := ha.segment 0 (Nat.lt_of_lt_of_le Nat.zero_lt_two htwo)
  rw [Store.finalizeCompaction]
  refine calls_bind (spares_removeSegments _ _ fun s _ hs => ha.segment s (by omega)) fun _ => ?_
  refine calls_bind ⟨⟨ha.tmp, hzero⟩, fun _ => trivial⟩ fun renamed => ?_
  split
  · exact ⟨ha.tmp, fun _ => trivial⟩
  refine calls_bind ⟨.inr rfl, fun _ => trivial⟩ fun file => ?_
  cases file with
  | none => exact @spares_rewriteIndex S { st with index := ∅ } { ha with }
  | some f =>
    refine calls_bind (spares_scanLoop _ _ _ _ _ _) fun x => calls_bind ⟨trivial, fun _ => trivial⟩
      fun _ => ?_
    exact @spares_rewriteIndex S { st with index := x.2 } { ha with }

theorem spares_compact (ha : st.Avoids S) (htwo : 2 ≤ st.count) {now : UInt32} :
    (st.compact now).calls (Call.Spares S) := by
  have hclear : st.clearJournal.calls (Call.Spares S) := ⟨ha.journal, fun _ => trivial⟩
  rw [Store.compact]
  refine calls_bind (spares_writeJournal ha.journal _ _ _) fun _ => ?_
  refine calls_bind ⟨.inl ha.tmp, fun _ => trivial⟩ fun file => ?_
  cases file with
  | none => exact calls_bind hclear fun _ => trivial
  | some outf =>
    have ha' := ha.same (Store.Steady.prune st).sameFiles
    have htwo' : 2 ≤ st.pruneIndexToMaxRecs.2.count := by
      rw [(Store.Steady.prune st).sameFiles.count]
      exact htwo
    dsimp only
    generalize st.pruneIndexToMaxRecs.2 = st' at ha' htwo' ⊢
    have hclear' : st'.clearJournal.calls (Call.Spares S) := ⟨ha'.journal, fun _ => trivial⟩
    refine calls_bind (spares_compactLoop ha'.journal _ _ _ _ fun s _ hs => ha'.segment s (by omega))
      fun x => calls_bind ⟨trivial, fun _ => trivial⟩ fun _ => calls_bind ⟨trivial, fun _ => trivial⟩
        fun _ => ?_
    split
    · split
      · exact calls_bind ⟨ha'.tmp, fun _ => trivial⟩ fun _ => calls_bind hclear' fun _ => trivial
      · trivial
    · refine calls_bind (spares_writeJournal ha'.journal _ _ _) fun _ => ?_
      refine calls_seq (spares_finalizeCompaction ha' htwo') (steady_finalizeCompaction (.refl st'))
        fun st'' h => ?_
      have hclear'' : st''.clearJournal.calls (Call.Spares S) :=
        ⟨(ha'.same h.sameFiles).journal, fun _ => trivial⟩
      exact calls_bind hclear'' fun _ => trivial

theorem spares_compactIfThreshold (ha : st.Avoids S) (htwo : 2 ≤ st.count) {now : UInt32} :
    (st.compactIfThreshold now).calls (Call.Spares S) := by
  rw [Store.compactIfThreshold]
  dsimp only
  split
  · refine calls_seq (spares_compact ha htwo) (steady_compact (.refl st)) fun r hr => ?_
    split
    · -- the store goes on in segment 1
      have ha' : Store.Avoids { r.2 with currentSegment := 1 } S := ha.same hr.sameFiles
      have hone : 1 < r.2.count := Nat.lt_of_lt_of_eq htwo hr.sameFiles.count.symm
      exact calls_bind (spares_openSegment ha' hone) fun _ => trivial
    · trivial
  · trivial

/-- The segment a full store goes on in is below the count, and the configuration stays. -/
theorem spares_rotateSegmentIfNeeded (ha : st.Avoids S) (htwo : 2 ≤ st.count) {clk : Clock}
    {writeSize : Nat} : (st.rotateSegmentIfNeeded clk writeSize).calls (Call.Spares S) := by
  rw [Store.rotateSegmentIfNeeded]
  split
  · trivial
  refine calls_seq spares_flushBuffer (steady_flushBuffer (.refl st)) fun r hr =>
    calls_bind (spares_closeFile _) fun _ => ?_
  have goes (st' : Store) (h : st.SameFiles st') {id : Nat} (hid : id < st.count) (b : Bool) :
      (st'.openSegment id >>= fun x => pure (b, x.2)).calls (Call.Spares S) :=
    calls_bind (spares_openSegment (ha.same h) (Nat.lt_of_lt_of_eq hid h.count.symm)) fun _ => trivial
  have hcount : r.2.count = st.count := hr.sameFiles.count
  have hlast (st' : Store) (h : st.SameFiles st') : st'.lastSegment < st.count := by
    rw [← h.count]
    exact lastSegment_lt (by rw [h.count]; exact htwo)
  have hsame : st.SameFiles { r.2 with
      activeFile := none
      currentSegment := wrap32 (r.2.currentSegment + 1) } := hr.sameFiles
  dsimp only
  split
  · next hlt => exact goes _ hsame (Nat.lt_of_lt_of_eq hlt hcount) true
  split
  · refine goes _ ?_ ?_ false
    · exact hr.sameFiles
    · exact hlast _ hr.sameFiles
  · refine calls_seq (spares_compact (ha.same hsame) (Nat.le_trans htwo (Nat.le_of_eq hcount.symm)))
      (steady_compact (.refl _)) fun x hx => ?_
    have hx : st.SameFiles x.2 := hsame.trans hx.sameFiles
    split
    · refine goes _ ?_ ?_ false
      · exact ⟨hx.1, hx.2⟩
      · exact hlast x.2 hx
    · refine goes _ ?_ ?_ true
      · exact hx
      · exact Nat.lt_of_lt_of_le Nat.one_lt_two htwo

/-! ## The operations -/

theorem sameFiles_rotateSegmentIfNeeded {clk : Clock} {writeSize : Nat} :
    (st.rotateSegmentIfNeeded clk writeSize).always fun r => st.SameFiles r.2 := by
  rw [Store.rotateSegmentIfNeeded]
  split
  · exact (Store.Steady.refl st).sameFiles
  refine always_seq (steady_flushBuffer (.refl st)) fun r hr => always_skip fun _ => ?_
  have goes (st' : Store) (h : st.SameFiles st') (id : Nat) (b : Bool) :
      (st'.openSegment id >>= fun x => pure (b, x.2)).always fun r => st.SameFiles r.2 :=
    always_seq (steady_openSegment (.refl st') id) fun x hx => h.trans hx.sameFiles
  dsimp only
  split
  · refine goes _ ?_ _ true
    exact hr.sameFiles
  split
  · refine goes _ ?_ _ false
    exact hr.sameFiles
  · refine always_seq (steady_compact (.refl _)) fun x hx => ?_
    have hx : st.SameFiles x.2 := hr.sameFiles.trans ⟨hx.basePrefix, hx.segmentCount⟩
    split
    · refine goes _ ?_ _ false
      exact ⟨hx.1, hx.2⟩
    · refine goes _ ?_ _ true
      exact ⟨hx.1, hx.2⟩

theorem spares_put (ha : st.Avoids S) (htwo : 2 ≤ st.count) {clk : Clock} {key data : Buf}
    {ttl ts : UInt32} {priority : UInt8} :
    (st.put clk key data ttl ts priority).calls (Call.Spares S) := by
  rw [Store.put]
  split
  · trivial
  split
  · trivial
  split
  · trivial
  refine calls_seq (spares_rotateSegmentIfNeeded ha htwo) sameFiles_rotateSegmentIfNeeded fun r h₁ => ?_
  refine calls_seq (spares_appendBuffer _) (steady_appendBuffer (.refl r.2) _) fun st₂ h₂ => ?_
  refine calls_seq (spares_appendBuffer _) (steady_appendBuffer h₂ _) fun st₃ h₃ => ?_
  refine calls_seq (spares_appendBuffer _) (steady_appendBuffer h₃ _) fun st₄ h₄ => ?_
  refine calls_seq (spares_appendBuffer _) (steady_appendBuffer h₄ _) fun st₅ h₅ => ?_
  refine calls_seq spares_flushBuffer (steady_flushBuffer h₅) fun r' h₆ => ?_
  dsimp only
  split
  · trivial
  rw [prune_if_exceeds]
  have h₇ : r.2.Steady (Store.indexInsert (r'.2.countDead key.bytes) key.bytes
      (r'.2.countDead key.bytes).currentSegment r.2.currentOffset ts ttl.toNat priority) :=
    (h₆.trans (.countDead r'.2 key.bytes)).trans ⟨rfl, rfl, rfl, rfl, rfl, rfl, rfl, rfl⟩
  refine calls_seq spares_persistIndexEntry (steady_persistIndexEntry (h₇.trans (.prune _)))
    fun x hx => ?_
  have hx := h₁.trans hx.sameFiles
  refine calls_bind (spares_compactIfThreshold ?_ ?_) fun _ => trivial
  · exact ha.same ⟨hx.1, hx.2⟩
  · exact Nat.le_trans htwo (Nat.le_of_eq hx.count.symm)

theorem spares_remove (ha : st.Avoids S) (htwo : 2 ≤ st.count) {clk : Clock} {key : Buf}
    {junkTtl : UInt32} {junkPriority : UInt8} :
    (st.remove clk key junkTtl junkPriority).calls (Call.Spares S) := by
  rw [Store.remove]
  split
  · trivial
  split
  · trivial
  refine calls_seq (spares_appendBuffer _) (steady_appendBuffer (.refl st) _) fun st₂ h₂ => ?_
  refine calls_seq (spares_appendBuffer _) (steady_appendBuffer h₂ _) fun st₃ h₃ => ?_
  refine calls_seq (spares_appendBuffer _) (steady_appendBuffer h₃ _) fun st₄ h₄ => ?_
  refine calls_seq spares_flushBuffer (steady_flushBuffer h₄) fun r h₅ => ?_
  have h₆ : st.Steady ((r.2.countDead key.bytes).indexRemove key.bytes) :=
    (h₅.trans (.countDead r.2 key.bytes)).trans ⟨rfl, rfl, rfl, rfl, rfl, rfl, rfl, rfl⟩
  refine calls_seq spares_persistIndexEntry (steady_persistIndexEntry h₆) fun x hx => ?_
  have hx := hx.sameFiles
  refine calls_bind (spares_compactIfThreshold ?_ ?_) fun _ => trivial
  · exact ha.same ⟨hx.1, hx.2⟩
  · exact Nat.le_trans htwo (Nat.le_of_eq hx.count.symm)

theorem spares_iterate : st.iterate.calls (Call.Spares S) := by
  rw [Store.iterate]
  refine calls_bind spares_flushBuffer fun r => calls_bind ?_ fun _ => trivial
  generalize r.2.items = items
  induction items with
  | nil => trivial
  | cons it items ih =>
    rw [Store.iterateLoop]
    refine calls_bind ?_ fun _ => calls_bind ih fun _ => trivial
    rw [Store.loadValue]
    refine calls_bind ⟨.inr rfl, fun _ => trivial⟩ fun file => ?_
    cases file with
    | none => trivial
    | some f =>
      refine calls_bind ⟨trivial, fun _ => trivial⟩ fun f => calls_bind ⟨trivial, fun _ => trivial⟩
        fun x => calls_bind ⟨trivial, fun _ => trivial⟩ fun f => ?_
      split
      · exact ⟨trivial, fun _ => ⟨trivial, fun _ => trivial⟩⟩
      · exact ⟨trivial, fun _ => trivial⟩

theorem spares_clear (ha : st.Avoids S) (htwo : 2 ≤ st.count) : st.clear.calls (Call.Spares S) := by
  rw [Store.clear]
  split
  · trivial
  refine calls_seq spares_flushBuffer (steady_flushBuffer (.refl st)) fun r hr =>
    calls_bind (spares_closeFile _) fun _ => calls_bind (spares_closeFile _) fun _ => ?_
  have ha' := ha.same hr.sameFiles
  have hcount : r.2.count = st.count := hr.sameFiles.count
  refine calls_bind (spares_removeSegments _ _ fun s _ hs => ha'.segment s (by
    exact Nat.lt_of_lt_of_eq hs (Nat.zero_add _))) fun _ => ?_
  refine calls_bind ⟨ha'.index, fun _ => trivial⟩ fun _ => ?_
  have opened (st' : Store) (h : r.2.SameFiles st') (b : Bool) :
      (if b = true then st'.openSegment 0 >>= fun x => pure x.2
        else (pure (true, st') >>= fun x => pure x.2 : FsM Store)).calls (Call.Spares S) := by
    cases b with
    | false => trivial
    | true =>
      refine calls_bind (spares_openSegment (ha'.same h) ?_) fun _ => trivial
      rw [h.count, hcount]
      exact Nat.lt_of_lt_of_le Nat.zero_lt_two htwo
  dsimp only
  split
  · refine calls_seq ⟨.inl ha'.index, fun _ => trivial⟩ (steady_openIndexForAppend (.refl _))
      fun st' h => ?_
    exact opened st' ⟨h.basePrefix, h.segmentCount⟩ _
  · exact opened { r.2 with
      indexFile := none, activeFile := none, index := ∅, deadSinceCompact := 0, currentSegment := 0,
      currentOffset := 0, writeBuf := [] } ⟨rfl, rfl⟩ _

/-! ## Opening -/

theorem spares_recoverIfNeeded (ha : st.Avoids S) (htwo : 2 ≤ st.count) :
    st.recoverIfNeeded.calls (Call.Spares S) := by
  have hzero : ¬S (st.segmentName 0) := ha.segment 0 (Nat.lt_of_lt_of_le Nat.zero_lt_two htwo)
  rw [Store.recoverIfNeeded]
  refine calls_bind ⟨.inr rfl, fun _ => trivial⟩ fun file => ?_
  cases file with
  | none => trivial
  | some f =>
    refine calls_bind ⟨trivial, fun _ => trivial⟩ fun x => calls_bind ⟨trivial, fun _ => trivial⟩
      fun _ => ?_
    dsimp only
    split
    · exact ⟨ha.journal, fun _ => trivial⟩
    split
    · refine calls_seq (spares_finalizeCompaction ha htwo) (steady_finalizeCompaction (.refl st))
        fun st' h => ?_
      exact ⟨(ha.same h.sameFiles).journal, fun _ => trivial⟩
    split
    · exact calls_bind ⟨ha.tmp, fun _ => trivial⟩ fun _ => ⟨ha.journal, fun _ => trivial⟩
    refine calls_bind ⟨⟨ha.tmp, hzero⟩, fun _ => trivial⟩ fun renamed => ?_
    split
    · trivial
    · exact ⟨ha.journal, fun _ => trivial⟩

theorem spares_loadIndex : st.loadIndex.calls (Call.Spares S) := by
  rw [Store.loadIndex]
  refine calls_bind ⟨.inr rfl, fun _ => trivial⟩ fun file => ?_
  cases file with
  | none => trivial
  | some f =>
    refine calls_bind ?_ fun _ => ⟨trivial, fun _ => trivial⟩
    generalize loopFuel = fuel
    generalize st.index = idx
    induction fuel generalizing f idx with
    | zero => trivial
    | succ fuel ih =>
      rw [Store.loadLoop]
      -- each field is read, and the loop ends where one is cut short
      refine calls_bind ⟨trivial, fun _ => trivial⟩ fun _ => ?_
      dsimp only
      split
      · trivial
      split
      · trivial
      refine calls_bind ⟨trivial, fun _ => trivial⟩ fun _ => ?_
      split
      · trivial
      refine calls_bind ⟨trivial, fun _ => trivial⟩ fun _ => ?_
      split
      · trivial
      refine calls_bind ⟨trivial, fun _ => trivial⟩ fun _ => ?_
      split
      · trivial
      refine calls_bind ⟨trivial, fun _ => trivial⟩ fun _ => ?_
      split
      · trivial
      refine calls_bind ⟨trivial, fun _ => trivial⟩ fun _ => ?_
      split
      · trivial
      refine calls_bind ⟨trivial, fun _ => trivial⟩ fun _ => ?_
      split
      · trivial
      split
      · exact ih _ _
      · exact ih _ _

theorem spares_rebuildIndexFromSegments (ha : st.Avoids S) :
    st.rebuildIndexFromSegments.calls (Call.Spares S) := by
  rw [Store.rebuildIndexFromSegments]
  refine calls_bind (spares_rebuildLoop _ _ _) fun idx => calls_bind (spares_closeFile _) fun _ => ?_
  refine calls_bind ⟨ha.index, fun _ => trivial⟩ fun _ => ?_
  exact calls_bind (@spares_writeIndexBulk S { st with index := idx } ha.index) fun _ => trivial

/-- The search for the last segment ends below the count. -/
theorem always_resumeLoop {n i r : Nat} : (st.resumeLoop n i r).always fun x => x = r ∨ x < i + n := by
  induction n generalizing i r with
  | zero => exact .inl rfl
  | succ n ih =>
    rw [Store.resumeLoop]
    refine always_skip fun file => ?_
    cases file with
    | none => exact always_mono ih fun x hx => by omega
    | some f => exact always_skip fun _ => always_mono ih fun x hx => by omega

theorem spares_resumeLoop {n i r : Nat} : (st.resumeLoop n i r).calls (Call.Spares S) := by
  induction n generalizing i r with
  | zero => trivial
  | succ n ih =>
    rw [Store.resumeLoop]
    refine calls_bind ⟨.inr rfl, fun _ => trivial⟩ fun file => ?_
    cases file with
    | none => exact ih
    | some f => exact calls_bind ⟨trivial, fun _ => trivial⟩ fun _ => ih

theorem spares_initTail (ha : st.Avoids S) (htwo : 2 ≤ st.count) :
    st.initTail.calls (Call.Spares S) := by
  have ha' := ha.same (Store.Steady.prune st).sameFiles
  have hcount := (Store.Steady.prune st).sameFiles.count
  -- the segment `init` resumes at is below the count
  have opened : st.pruneIndexToMaxRecs.2.openFiles.calls (Call.Spares S) := by
    rw [Store.openFiles]
    refine calls_seq (spares_openIndexForAppend ha') (steady_openIndexForAppend (.refl _))
      fun st' h => calls_seq spares_resumeLoop always_resumeLoop fun r hr => ?_
    refine calls_bind (spares_openSegment (ha'.same h.sameFiles) ?_) fun _ => trivial
    rw [Nat.zero_add] at hr
    have hc := h.sameFiles.count
    omega
  rw [Store.initTail]
  dsimp only
  split
  · refine calls_bind ⟨ha'.index, fun _ => trivial⟩ fun _ => ?_
    exact calls_bind (spares_writeIndexBulk ha'.index) fun _ => opened
  · exact opened

theorem spares_initFiles (ha : st.Avoids S) (htwo : 2 ≤ st.count) (clearOnInit : Bool) :
    (st.initFiles clearOnInit).calls (Call.Spares S) := by
  have hindex (st' : Store) (h : st.SameFiles st') : st'.initIndex.calls (Call.Spares S) := by
    have htwo' : 2 ≤ st'.count := Nat.le_trans htwo (Nat.le_of_eq h.count.symm)
    rw [Store.initIndex]
    refine calls_seq spares_loadIndex (steady_loadIndex (.refl st')) fun x hx => ?_
    obtain ⟨loaded, st''⟩ := x
    have ha'' := (ha.same h).same hx.sameFiles
    have htwo'' : 2 ≤ st''.count := Nat.le_trans htwo' (Nat.le_of_eq hx.sameFiles.count.symm)
    cases loaded with
    | true => exact spares_initTail ha'' htwo''
    | false =>
      refine calls_seq (spares_rebuildIndexFromSegments ha'')
        (steady_rebuildIndexFromSegments (.refl st'')) fun y hy => ?_
      exact spares_initTail (ha''.same hy.sameFiles)
        (Nat.le_trans htwo'' (Nat.le_of_eq hy.sameFiles.count.symm))
  have hrecover (st' : Store) (h : st.SameFiles st') :
      (st'.recoverIfNeeded >>= Store.initIndex).calls (Call.Spares S) :=
    calls_seq (spares_recoverIfNeeded (ha.same h) (Nat.le_trans htwo (Nat.le_of_eq h.count.symm)))
      (steady_recoverIfNeeded (.refl st')) fun st'' h' => hindex st'' (h.trans h'.sameFiles)
  rw [Store.initFiles]
  cases clearOnInit with
  | true =>
    exact calls_seq (spares_clear ha htwo) (steady_clear (.refl st)) fun st' h =>
      hrecover st' h.sameFiles
  | false => exact hrecover st ⟨rfl, rfl⟩

theorem spares_init {pre : Path} {segmentSize : UInt32} {segmentCount : UInt8}
    (ha : (st.configured pre segmentSize segmentCount).Avoids S)
    (htwo : 2 ≤ (st.configured pre segmentSize segmentCount).count) (clearOnInit : Bool) :
    (st.init pre clearOnInit segmentSize segmentCount).calls (Call.Spares S) := by
  rw [Store.init_eq]
  dsimp only
  split
  · exact ⟨trivial, fun _ => spares_initFiles ha htwo clearOnInit⟩
  · exact spares_initFiles ha htwo clearOnInit

end operations

/-! ## Segments at or beyond the count -/

/-- There is no segment file at or beyond the count. -/
def NoneFrom (pre : Path) (count : Nat) (fs : FileSystem) : Prop :=
  ∀ s < 256, count ≤ s → fs.dir (storePath pre (.segment s)) = none

instance (pre : Path) (count : Nat) (fs : FileSystem) : Decidable (NoneFrom pre count fs) :=
  decidable_of_iff (∀ s ∈ List.range 256, count ≤ s → fs.dir (storePath pre (.segment s)) = none)
    (forall_congr' fun _ => by rw [List.mem_range])

/-- There is no segment file at or beyond the count of the store. -/
def Store.NoneBeyond (st : Store) (fs : FileSystem) : Prop := NoneFrom st.basePrefix st.count fs

instance (st : Store) (fs : FileSystem) : Decidable (st.NoneBeyond fs) :=
  inferInstanceAs (Decidable (NoneFrom ..))

/-- The names of the segments at or beyond the count. -/
def Store.beyond (st : Store) : Path → Prop :=
  Names st.basePrefix fun a => ∃ s, a = .segment s ∧ st.count ≤ s

/-- A store with file names that are all different does not work on segments beyond the count. -/
theorem Store.avoids_beyond {st : Store} (hn : NamesOk st.basePrefix) : st.Avoids st.beyond where
  segment s hs := by
    refine hn.not_mem (.segment s) (Nat.lt_trans hs st.segmentCount.toNat_lt) ?_
    rintro ⟨s', he, hs'⟩
    cases he
    exact Nat.not_lt.2 hs' hs
  index := hn.not_mem .index trivial (by rintro ⟨s, ⟨⟩, -⟩)
  journal := hn.not_mem .journal trivial (by rintro ⟨s, ⟨⟩, -⟩)
  tmp := hn.not_mem .tmp trivial (by rintro ⟨s, ⟨⟩, -⟩)

/-- **No segment file appears at or beyond the count.** -/
theorem Store.NoneBeyond.spared {st : Store} {fs : FileSystem} {α : Type} {p : FsM α}
    (h : st.NoneBeyond fs) (hp : p.calls (Call.Spares st.beyond)) :
    st.NoneBeyond (Prog.exec posix p fs).2 := by
  intro s hlt hs
  have hspared := @Env.plain_exec _ p (fun _ fs' => ∀ q, st.beyond q → fs'.dir q = fs.dir q) fs
    (plain_spares hp)
  exact (hspared _ (mem_names (a := .segment s) hlt ⟨s, rfl, hs⟩)).trans (h s hlt hs)

end MicroStore
