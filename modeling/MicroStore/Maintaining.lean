import MicroStore.Sizing
import MicroStore.Surviving

/-!
# Keeping every record within reach

Compaction, rebuilding and clearing loop over the segments below `segment_count`, and the count may be
another one each time the files are opened.  This module follows a store through any sequence of openings
under one prefix and shows that, as long as no opening leaves a segment file outside, no live record is
ever out of reach: a compaction keeps it, and so does a scan of the segments.

`Bounding.lean` has the part that is about segment numbers alone.  It holds of any files and under any
faults, and says nothing about records; what is added here needs files that a store of this kind has
written.

## What is here

* `Disk.recount` — the same files under another count: nothing changes, if there is no segment file at or
  beyond either of the two.
* `Store.Opens` — what an `init` ends in, whether the object is new or was in use, whether it clears the
  files or not, and whether there are any (`wp_initFiles_opens`).
* `Phase` — how far the object of a run is: not open, open, or open with its active file replaced by a
  manual compaction.  `Move.Careful` says which moves a run may make in a phase.
* `Upheld` — the invariant.  Between two moves the files are those of a log, a scan of the segments leads
  to what the index file leads to, and there is no segment file at or beyond the count.  `Upheld.step` is
  one move, `Upheld.run` a whole run.
* `Store.LosesNone` — what the invariant is for: a compaction keeps every record that is neither evicted
  nor expired, and a rebuild every record there is.
* `segments_maintained` puts the two parts together.

## What is not here

Two things a caller may do are left out, since they lose records for other reasons: to put or remove
between a manual `compact()` and the next opening, and to put or remove the empty key.
-/

set_option autoImplicit false

namespace MicroStore

/-! ## The same files under another count -/

section recount

variable {L : Log} {count count' : Nat}

/-- Segments that are not there have no bytes. -/
theorem Log.size_eq {m n : Nat} (hle : m ≤ n) (hnone : ∀ s, m ≤ s → L.segs s = none) :
    L.size n = L.size m := by
  induction hle with
  | refl => rfl
  | step hle ih =>
    rw [Log.size, ih, hnone _ hle]
    rfl

theorem Log.located_of_none {m n : Nat} (hle : m ≤ n) (hnone : ∀ s, m ≤ s → L.segs s = none) :
    L.located n = L.located m := by
  induction hle with
  | refl => rfl
  | step hle ih =>
    rw [Log.located, ih, Log.segLocated, hnone _ hle]
    exact List.append_nil _

/-- What depends on the segments below a count only is the same for two counts, if there are no others. -/
theorem Log.same_of_lt {α : Type} {f : Nat → α}
    (hf : ∀ m n, m ≤ n → (∀ s, m ≤ s → L.segs s = none) → f n = f m)
    (h : ∀ s g, L.segs s = some g → s < count) (h' : ∀ s g, L.segs s = some g → s < count') :
    f count' = f count := by
  have hnone {c : Nat} (h : ∀ s g, L.segs s = some g → s < c) (s : Nat) (hs : c ≤ s) :
      L.segs s = none :=
    Option.eq_none_iff_forall_ne_some.2 fun g hg => Nat.not_lt.2 hs (h s g hg)
  rcases Nat.le_total count count' with hle | hle
  · exact hf _ _ hle (hnone h)
  · exact (hf _ _ hle (hnone h')).symm

theorem Log.Ordered.recount {cur : Nat} (h : L.Ordered count cur) (htwo : 2 ≤ count')
    (hlt : ∀ s g, L.segs s = some g → s < count) (hlt' : ∀ s g, L.segs s = some g → s < count') :
    L.Ordered count' cur :=
  { h with
    two_le := htwo
    scan := fun k t ht => by
      rw [Log.same_of_lt (fun _ _ => Log.located_of_none) hlt hlt']
      exact h.scan k t ht }

variable {pre : Path} {fs : FileSystem}

/-- The segments of the log are below a count beyond which there are no files. -/
theorem Disk.segs_lt (hd : Disk pre count fs L) (h : NoneFrom pre count' fs) (s : Nat) (g : Segment)
    (hg : L.segs s = some g) : s < count' := by
  obtain ⟨i, hi, -⟩ := hd.dir_segment hg
  by_contra hs
  have hlt := Nat.lt_trans (hd.ok.segs_lt s g hg) (spanOf_lt hd.lt)
  cases (h s hlt (Nat.not_lt.1 hs)).symm.trans hi

/-- **The files represent the same log under another count** if there is no segment file at or beyond
either of the two. -/
theorem Disk.recount (hd : Disk pre count fs L) (htwo : 2 ≤ count) (htwo' : 2 ≤ count')
    (hlt' : count' < 256) (h : NoneFrom pre count fs) (h' : NoneFrom pre count' fs) :
    Disk pre count' fs L where
  names := hd.names
  lt := hlt'
  ok :=
    { hd.ok with
      segs_lt := fun s g hg => Nat.lt_of_lt_of_le (hd.segs_lt h' s g hg) (le_spanOf _)
      entries_le := by
        have hle := hd.ok.entries_le
        rw [spanOf_eq htwo] at hle
        rw [spanOf_eq htwo', Log.same_of_lt (fun _ _ => Log.size_eq) (hd.segs_lt h) (hd.segs_lt h')]
        exact hle }
  segs s hs := by
    rw [spanOf_eq htwo'] at hs
    by_cases hc : s < count
    · exact hd.segs s (Nat.lt_of_lt_of_le hc (le_spanOf _))
    · -- a segment the count has grown by
      rw [FileSystem.file_eq_none.2 (h s (Nat.lt_trans hs hlt') (Nat.not_lt.1 hc)), eq_comm,
        Option.map_eq_none_iff]
      exact Option.eq_none_iff_forall_ne_some.2 fun g hg => hc (hd.segs_lt h s g hg)
  index := hd.index
  journal := hd.journal

end recount

/-! ## Opening -/

/-- What an `init` ends in that was called on this store, once it is configured. -/
def Store.Opens (st st' : Store) (fs' : FileSystem) : Prop :=
  ∃ st₁ L₀ L' cur, Opened st₁ L₀ st' fs' L' ∧ L₀.Ordered st₁.count cur ∧ L₀.indexTail = [] ∧
    SameConfig st st₁

/-- What `init` finds: the files, and what the object has left in its members. -/
structure Store.Rests (st : Store) (pre : Path) (fs : FileSystem) : Prop where
  /-- The names of the files are different. -/
  names : NamesOk pre
  /-- Nothing waits in the write buffer. -/
  buf : st.writeBuf = []
  /-- Both files of the object are open, or neither is. -/
  handles : st.indexFile.isSome = st.activeFile.isSome
  /-- Recovery has nothing to bring back. -/
  settled : Settled pre fs
  /-- There are no files at all, or those of an ordered log with no segment beyond the count it was
  written under; what the object still has in its index is in the index file, too. -/
  files : (∀ a : StoreFile, a.Valid → fs.dir (storePath pre a) = none) ∨
    ∃ count cur L, Disk pre count fs L ∧ L.Ordered count cur ∧ L.indexTail = [] ∧
      NoneFrom pre count fs ∧ st.index.Within (L.entries.foldl (fun idx e => e.apply idx) ∅)

section opening

variable {E : Env} {st : Store} {fs : FileSystem} {L : Log} {cur : Nat}

/-- `init` without `clear`, on the files of an ordered log. -/
theorem wp_initFiles_disk (hE : E.Fits st.basePrefix st.count) (hd : Disk st.basePrefix st.count fs L)
    (ho : L.Ordered st.count cur) (htail : L.indexTail = []) (hvalid : st.valid = true)
    (hbuf : st.writeBuf = []) (hindex : st.index.Within (L.entries.foldl (fun idx e => e.apply idx) ∅))
    (hinv : ∀ (f : Handle) bs fs', E.inv (.write f bs) fs') :
    E.wp (st.initFiles false) (fun x fs' => st.Opens x.2 fs') fs := by
  refine wp_initFiles_over hE hd (by rw [htail]; exact readEntry_nil) hvalid
    (.inl (Nat.lt_of_lt_of_le Nat.zero_lt_two ho.two_le)) hbuf hindex (fun f bs fs' _ => hinv f bs fs')
    fun st' fs' L' hop => ?_
  exact ⟨_, _, L', cur, hop, ho.reloaded, htail, ⟨rfl, rfl, rfl, rfl⟩⟩

/-- `init` without `clear`, where there is neither a segment nor an index file. -/
theorem wp_initFiles_none (hE : E.Fits st.basePrefix st.count) (hf : Files st.basePrefix st.count fs .empty)
    (hnone : fs.dir st.indexName = none) (htwo : 2 ≤ st.count) (hvalid : st.valid = true)
    (hbuf : st.writeBuf = []) (hinv : ∀ (f : Handle) bs fs', E.inv (.write f bs) fs') :
    E.wp (st.initFiles false) (fun x fs' => st.Opens x.2 fs') fs := by
  refine wp_initFiles_missing hE hf (Log.empty_scannable _) hnone (fun f bs fs' _ => hinv f bs fs') hvalid
    (.inl (Nat.lt_of_lt_of_le Nat.zero_lt_two htwo)) hbuf fun idx es st' fs' L' _ hop => ?_
  exact ⟨_, _, L', 0, hop, (Log.rebuilt_empty_tidy htwo 0).toOrdered, rfl, ⟨rfl, rfl, rfl, rfl⟩⟩

/-- `init` with `clear`: whatever there was is gone, so what is opened is empty. -/
theorem wp_initFiles_cleared (hE : E.Fits st.basePrefix st.count) (hn : NamesOk st.basePrefix)
    (hset : Settled st.basePrefix fs) (htwo : 2 ≤ st.count) (hvalid : st.valid = true)
    (hbuf : st.writeBuf = []) (hhandles : st.indexFile.isSome = st.activeFile.isSome)
    (hinv : ∀ (f : Handle) bs fs', E.inv (.write f bs) fs') :
    E.wp (st.initFiles true) (fun x fs' => st.Opens x.2 fs') fs := by
  have hlt : st.count < 256 := st.segmentCount.toNat_lt
  have hspan := spanOf_eq htwo
  have hpos : 0 < st.count := Nat.lt_of_lt_of_le Nat.zero_lt_two htwo
  change E.wp (st.clear >>= fun st' => st'.initFiles false) _ fs
  refine Prog.wp_bind.2 ?_
  cases hopen : st.activeFile.isSome with
  | true =>
    -- an object in use opens its files again within `clear`
    refine wp_clear (L := .empty) hE hvalid (.inl hpos) hbuf hn hlt hset (hhandles.trans hopen) hopen
      (fun s h1 h2 => by omega) nofun fun st' fs' L' hr hc hcur hL => ?_
    have hordered : L'.Ordered st'.count 0 := by
      rw [hL, hc.count]
      have htidy : (Log.empty.rebuilt st.count []).Tidy st.count 0 := Log.rebuilt_empty_tidy htwo 0
      exact Log.opened_ordered (htidy.toOrdered.cleared nofun 0)
        fun s _ => by
          change (if s < st.count then none else none) = none
          exact ite_self _
    have hindex : st'.index.Within (L'.entries.foldl (fun idx e => e.apply idx) ∅) := by
      intro k v hv
      rw [hr.rep.shows k, hL] at hv
      cases hv
    refine Prog.wp_mono (wp_initFiles_disk (by rw [hc.pre, hc.count]; exact hE) hr.rep.disk hordered
      hr.indexTail hr.rep.valid hr.rep.buf hindex hinv) fun x fs'' hx => ?_
    obtain ⟨st₁, L₀, L', cur, h1, h2, h3, h4⟩ := hx
    exact ⟨st₁, L₀, L', cur, h1, h2, h3, hc.trans h4⟩
  | false =>
    refine wp_clear_closed hE hvalid hbuf hn hlt fun fs1 hf1 hseg hnone => ?_
    rw [hhandles, hopen]
    refine Env.wp_pure_bind (Env.wp_pure_bind (Env.wp_ret ?_))
    have hfiles : Files st.basePrefix st.count fs1 .empty :=
      Files.of_gone hn hlt (fun s hs => hseg s (by omega))
        (hset.frame hn hf1 (by simp [StoreFile.below]) (by simp [StoreFile.below]))
    refine Prog.wp_mono (@wp_initFiles_none E st.cleared fs1 hE hfiles hnone htwo hvalid rfl hinv)
      fun x fs'' hx => ?_
    obtain ⟨st₁, L₀, L', cur, h1, h2, h3, h4⟩ := hx
    exact ⟨st₁, L₀, L', cur, h1, h2, h3, ⟨h4.pre, h4.segmentCount, h4.ttl, h4.maxRecs⟩⟩

/-- **Every `init` opens the files**, if there are two segments or more and no segment file is left
outside. -/
theorem wp_initFiles_opens (hE : E.Fits st.basePrefix st.count) (h : st.Rests st.basePrefix fs)
    (hvalid : st.valid = true) (htwo : 2 ≤ st.count) (hnone : st.NoneBeyond fs)
    (hinv : ∀ (f : Handle) bs fs', E.inv (.write f bs) fs') (clearOnInit : Bool) :
    E.wp (st.initFiles clearOnInit) (fun x fs' => st.Opens x.2 fs') fs := by
  have hlt : st.count < 256 := st.segmentCount.toNat_lt
  cases clearOnInit with
  | true => exact wp_initFiles_cleared hE h.names h.settled htwo hvalid h.buf h.handles hinv
  | false =>
    rcases h.files with hfresh | ⟨count, cur, L, hd, ho, htail, hfrom, hindex⟩
    · refine wp_initFiles_none hE (Files.of_gone h.names hlt (fun s hs => ?_) h.settled)
        (hfresh .index trivial) htwo hvalid h.buf hinv
      exact hfresh (.segment s) (Nat.lt_trans hs (spanOf_lt hlt))
    · have hd' := hd.recount ho.two_le htwo hlt hfrom hnone
      exact wp_initFiles_disk hE hd' (ho.recount htwo (hd.segs_lt hfrom) (hd.segs_lt hnone)) htail hvalid
        h.buf hindex hinv

end opening

/-! ## Careful runs -/

/-- No segment file of the store has reached `2 ^ 24` bytes. -/
def Store.Small (st : Store) (fs : FileSystem) : Prop :=
  ∀ s < spanOf st.count, ∀ bs, fs.file (st.segmentName s) = some bs → bs.length < 2 ^ 24

instance (st : Store) (fs : FileSystem) : Decidable (st.Small fs) :=
  decidable_of_iff (∀ s < spanOf st.count, ∀ bs ∈ fs.file (st.segmentName s), bs.length < 2 ^ 24) Iff.rfl

/-- None has at any call of the program, nor at its end. -/
def Store.SmallAlong {α : Type} (st : Store) (p : FsM α) (fs : FileSystem) : Prop :=
  (∀ x ∈ Prog.trace posix p fs, st.Small x.2) ∧ st.Small (Prog.exec posix p fs).2

instance {α : Type} (st : Store) (p : FsM α) (fs : FileSystem) : Decidable (st.SmallAlong p fs) :=
  inferInstanceAs (Decidable ((∀ x ∈ Prog.trace posix p fs, st.Small x.2) ∧ _))

/-- How far the object of a run is. -/
inductive Phase
  /-- It is not open: newly made, or closed. -/
  | idle
  /-- It is open.  `detached` says that a manual compaction has replaced its active file. -/
  | opened (detached : Bool)
  deriving DecidableEq

namespace Move

/-- The phase behind a move. -/
def next (p : Phase) : Move → Phase
  | .construct .. | .close => .idle
  | .init .. | .clear => .opened false
  | .compact _ => .opened true
  | .setTtlSecs _ | .setMaxRecs _ | .put .. | .get .. | .exists .. | .remove .. | .iterate => p

/-- The store whose number of segments is in force during a move. -/
def configured (pre : Path) (st : Store) : Move → Store
  | .init _ segmentSize segmentCount => st.configured pre segmentSize segmentCount
  | .construct .. | .close | .clear | .setTtlSecs _ | .setMaxRecs _ | .put .. | .get .. | .exists ..
  | .remove .. | .iterate | .compact _ => st

/-- A move that loses no record. -/
def Careful (pre : Path) (p : Phase) (s : Store × FileSystem) : Move → Prop
  | .construct .. | .close | .setTtlSecs _ | .setMaxRecs _ => True
  -- no segment file is left outside
  | .init _ segmentSize segmentCount => (s.1.configured pre segmentSize segmentCount).NoneBeyond s.2
  | .get .. | .exists .. | .iterate | .clear | .compact _ => p ≠ .idle
  -- nothing is written to a file that a manual compaction has replaced, and no key is empty
  | .put _ key _ _ _ _ | .remove _ key _ _ => p = .opened false ∧ key.bytes ≠ []

/-- Every move of the run is careful, and no segment file reaches `2 ^ 24` bytes on the way. -/
def CarefulAll (pre : Path) : Phase → List Move → Store × FileSystem → Prop
  | _, [], _ => True
  | p, m :: ms, s => m.Careful pre p s ∧
    (∀ x ∈ Prog.trace posix (m.perform pre s.1) s.2, (m.configured pre s.1).Small x.2) ∧
    CarefulAll pre (m.next p) ms (Prog.exec posix (m.perform pre s.1) s.2)

instance decidableCareful (pre : Path) (p : Phase) (s : Store × FileSystem) :
    (m : Move) → Decidable (m.Careful pre p s)
  | .construct .. | .close | .setTtlSecs _ | .setMaxRecs _ => .isTrue trivial
  | .init _ segmentSize segmentCount =>
    inferInstanceAs (Decidable ((s.1.configured pre segmentSize segmentCount).NoneBeyond s.2))
  | .get .. | .exists .. | .iterate | .clear | .compact _ => inferInstanceAs (Decidable (p ≠ .idle))
  | .put _ key _ _ _ _ | .remove _ key _ _ =>
    inferInstanceAs (Decidable (p = .opened false ∧ key.bytes ≠ []))

instance decidableCarefulAll (pre : Path) : (ms : List Move) → (p : Phase) → (s : Store × FileSystem) →
    Decidable (CarefulAll pre p ms s)
  | [], _, _ => .isTrue trivial
  | _ :: ms, _, _ => @instDecidableAnd _ _ _ (@instDecidableAnd _ _ _ (decidableCarefulAll pre ms _ _))

end Move

/-! ## The invariant -/

/-- What a store was opened with, read off its members. -/
def Store.setup (st : Store) (pre : Path) : Setup :=
  ⟨pre, 0, st.segmentCount, 0, st.segmentCount, st.policyTtlSecs, st.policyMaxRecs⟩

/-- Between two moves. -/
def Upheld (pre : Path) : Phase → Store × FileSystem → Prop
  | .idle, s => s.1.Rests (pre.take (maxFilenameLen - 1)) s.2 ∧ s.1.activeFile = none
  | .opened b, s => ∃ m L, Placed (s.1.setup pre) b m s.1 s.2 L ∧
      L.Ordered s.1.count s.1.currentSegment ∧ s.1.NoneBeyond s.2

section upheld

variable {pre : Path} {su : Setup} {b : Bool} {m : Key → Option Record} {st : Store} {fs : FileSystem}
  {L : Log}

/-- What is placed for some setup is placed for the one the members say. -/
theorem Placed.own (h : Placed su b m st fs L) (hpre : su.pre = pre) : Placed (st.setup pre) b m st fs L :=
  { h with
    pre := by rw [h.pre, Setup.basePrefix, hpre, Setup.basePrefix, Store.setup]
    segmentCount := (ite_self _).symm
    ttl := rfl
    maxRecs := rfl }

theorem Placed.small_iff (h : Placed su b m st fs L) (fs' : FileSystem) : su.Small fs' ↔ st.Small fs' := by
  rw [Setup.Small, Store.Small, Store.count, h.segmentCount, ← h.pre]

theorem Store.setup_small (h : st.basePrefix = (st.setup pre).basePrefix) :
    (st.setup pre).Small fs ↔ st.Small fs := by
  have hcount : (st.setup pre).segments = st.segmentCount := ite_self _
  rw [Setup.Small, Store.Small, Store.count, hcount, ← h]

/-- A store that is held under the same prefix, with the same number of segments. -/
theorem Placed.noneBeyond {st' : Store} (h : Placed su b m st' fs L) (hpre : st.basePrefix = su.basePrefix)
    (hcount : st.segmentCount = su.segments) (hnone : st.NoneBeyond fs) : st'.NoneBeyond fs := by
  change NoneFrom st'.basePrefix st'.count fs
  rw [h.pre, ← hpre, Store.count, h.segmentCount, ← hcount]
  exact hnone

/-- What is opened has its records in their places, and is ordered. -/
theorem Store.Opens.placed {st' : Store} (h : st.Opens st' fs) (hpre : st.basePrefix = su.basePrefix)
    (hcount : st.segmentCount = su.segments) (httl : st.policyTtlSecs = su.ttlSecs)
    (hmax : st.policyMaxRecs = su.maxRecs) :
    ∃ m L, Placed su false m st' fs L ∧ L.Ordered st'.count st'.currentSegment := by
  obtain ⟨st₁, L₀, L', cur, hop, ho, htail, hc⟩ := h
  have hheld : Held su false (fun k => (L₀.saved k).map Located.record) st' fs L' :=
    hop.held htail (fun k t ht => by rw [ht]; rfl) (hc.pre.trans hpre) (hc.segmentCount.trans hcount)
      (hc.ttl.trans httl) (hc.maxRecs.trans hmax)
  exact ⟨_, L', hheld.toPlaced, hop.ordered cur ho⟩

/-- What `init` relies on does not depend on an index that has gone, or on the policies. -/
theorem Store.Rests.renew (h : st.Rests pre fs) {st' : Store} (hbuf : st'.writeBuf = [])
    (hhandles : st'.indexFile.isSome = st'.activeFile.isSome) (hindex : st'.index.Within st.index) :
    st'.Rests pre fs :=
  { h with
    buf := hbuf
    handles := hhandles
    files := by
      refine h.files.imp_right ?_
      rintro ⟨count, cur, L, hd, ho, htail, hfrom, hw⟩
      exact ⟨count, cur, L, hd, ho, htail, hfrom, fun k v hv => hw k v (hindex k v hv)⟩ }

theorem empty_within (idx : Index) : Index.Within ∅ idx := fun _ _ hv => by cases hv

/-- Whatever phase the object is in, `init` can be called on it. -/
theorem Upheld.rests {p : Phase} (h : Upheld pre p (st, fs)) :
    st.Rests (pre.take (maxFilenameLen - 1)) fs := by
  cases p with
  | idle => exact h.1
  | opened b =>
    obtain ⟨m, L, hplaced, ho, hnone⟩ := h
    have hr := hplaced.rep
    have hd := hr.disk
    have hpre : st.basePrefix = pre.take (maxFilenameLen - 1) := hplaced.pre
    obtain ⟨f, hf, -⟩ := hr.indexFile
    rw [hpre] at hd
    refine ⟨hd.names, hr.buf, ?_, hd.journal, .inr ⟨st.count, _, L, hd, ho, hplaced.indexTail, ?_, ?_⟩⟩
    · have hopened : st.activeFile.isSome = true := hplaced.opened
      rw [hf, hopened]
      rfl
    · have hnone : NoneFrom st.basePrefix st.count fs := hnone
      rwa [hpre] at hnone
    · intro k v hv
      rw [hr.shows k, Option.map_eq_some_iff] at hv
      obtain ⟨t, ht, rfl⟩ := hv
      rw [hd.ok.entries k, hd.ok.sub k t ht]
      rfl

/-- An operation on an open store. -/
theorem Upheld.perform {b : Bool} (h : Upheld pre (.opened b) (st, fs)) {op : Operation} {p : FsM Store}
    (hp : p = (st.setup pre).perform st op) (hb : op.appends = true → b = false) (hnamed : op.Named)
    (hsmall : ∀ x ∈ Prog.trace posix p fs, st.Small x.2) (hcalls : p.calls (Call.Spares st.beyond)) :
    Upheld pre (.opened (op.detaches b)) (Prog.exec posix p fs) := by
  obtain ⟨m, L, hplaced, ho, hnone⟩ := h
  have hnone' := hnone.spared hcalls
  obtain ⟨L', hplaced', hf⟩ := Env.exec_of_wp (hp ▸ hplaced.wp_perform hb) fun x hx =>
    (hplaced.small_iff x.2).2 (hsmall x hx)
  exact ⟨_, L', hplaced'.own rfl, hf.ordered hnamed ho,
    hplaced'.noneBeyond hplaced.pre hplaced.segmentCount hnone'⟩

/-- `get` changes nothing, unless the entry it finds has expired. -/
theorem Rep.plain_get (hr : Rep st fs L) {clk : Clock} {key : Buf} {out : Bool} {size : Nat} :
    Env.plain.wp (st.get clk key out size) (fun x fs' => fs' = fs ∧
      ∃ idx, Drops clk.time st L idx ∧ x.2 = { st with index := idx }) fs := by
  have same : ∃ idx, Drops clk.time st L idx ∧ st = { st with index := idx } :=
    ⟨st.index, .refl hr.shows, rfl⟩
  -- what is read at the entry makes no difference
  have hread (e : IndexValue) : Env.plain.wp (st.getAt e out size) (fun _ fs' => fs' = fs) fs := by
    have hreads := Env.plain_reads fs
    rw [Store.getAt]
    refine wp_openRead hreads (fun _ => rfl) fun i _ _ => wp_seekSet hreads ?_
    refine wp_read hreads rfl fun f _ hmode => ?_
    dsimp only
    split
    · exact wp_close hreads rfl
    split
    · exact wp_close hreads rfl
    split
    · exact wp_close hreads rfl
    refine wp_seekSet hreads (wp_read hreads (by exact hmode ▸ rfl) fun f' _ _ => ?_)
    split
    · exact wp_close hreads rfl
    · exact wp_close hreads rfl
  rw [Store.get]
  split
  · exact ⟨rfl, same⟩
  split
  · exact ⟨rfl, same⟩
  rw [flushBuffer_nil hr.buf]
  refine Env.wp_pure_bind ?_
  have hfind : st.indexFind key.bytes = (L.live key.bytes).map Located.indexValue := hr.shows _
  dsimp only
  rw [hfind]
  cases hl : L.live key.bytes with
  | none => exact ⟨rfl, same⟩
  | some t =>
    dsimp only [Option.map_some]
    split
    · next hexp => exact ⟨rfl, _, .erase hr.shows hl hexp, rfl⟩
    · exact Env.wp_seq (hread t.indexValue) fun _ fs' he => ⟨he, same⟩

/-- An `init` that leaves no segment file outside. -/
theorem Store.Rests.init (h : st.Rests (pre.take (maxFilenameLen - 1)) fs) {clearOnInit : Bool}
    {segmentSize : UInt32} {segmentCount : UInt8}
    (htwo : 2 ≤ (st.configured pre segmentSize segmentCount).count)
    (hnone : (st.configured pre segmentSize segmentCount).NoneBeyond fs)
    (hsmall : ∀ x ∈ Prog.trace posix (Move.perform pre st (.init clearOnInit segmentSize segmentCount)) fs,
      (st.configured pre segmentSize segmentCount).Small x.2) :
    Upheld pre (.opened false)
      (Prog.exec posix (Move.perform pre st (.init clearOnInit segmentSize segmentCount)) fs) := by
  have hcalls : (Move.perform pre st (.init clearOnInit segmentSize segmentCount)).calls
      (Call.Spares (st.configured pre segmentSize segmentCount).beyond) :=
    Prog.calls_bind (spares_init (Store.avoids_beyond h.names) htwo clearOnInit) fun _ => trivial
  obtain ⟨st₁, hst⟩ : ∃ st₁, st.configured pre segmentSize segmentCount = st₁ := ⟨_, rfl⟩
  have hrests : st₁.Rests st₁.basePrefix fs := by
    rw [← hst]
    exact h.renew h.buf h.handles fun _ _ hv => hv
  have hvalid : st₁.valid = true := by rw [← hst]; rfl
  have hpre : st₁.basePrefix = (st₁.setup pre).basePrefix := by rw [← hst]; rfl
  have hsc : st₁.segmentCount = (st₁.setup pre).segments := (ite_self _).symm
  rw [hst] at htwo hnone hsmall hcalls
  have hE : (st₁.setup pre).env.Fits st₁.basePrefix st₁.count := by
    rw [hpre, Store.count, hsc]
    exact (st₁.setup pre).fits
  have hinit : (st₁.setup pre).env.wp (Move.perform pre st (.init clearOnInit segmentSize segmentCount))
      (fun st' fs' => st₁.Opens st' fs') fs := by
    refine Env.wp_seq (wp_init_configured (fun _ => ⟨trivial, id⟩) ?_) fun x fs' hx => Env.wp_ret hx
    rw [hst]
    exact wp_initFiles_opens hE hrests hvalid htwo hnone (fun _ _ _ => trivial) clearOnInit
  have hopens := Env.exec_of_wp hinit fun x hx => (Store.setup_small hpre).2 (hsmall x hx)
  obtain ⟨m, L, hplaced, ho⟩ := hopens.placed hpre hsc rfl rfl
  exact ⟨m, L, hplaced.own rfl, ho, hplaced.noneBeyond hpre hsc (hnone.spared hcalls)⟩

/-- Setting the policies keeps the invariant. -/
theorem Upheld.policies {p : Phase} (h : Upheld pre p (st, fs)) (ttlSecs maxRecs : UInt32) :
    Upheld pre p ({ st with policyTtlSecs := ttlSecs, policyMaxRecs := maxRecs }, fs) := by
  have hrests := h.rests
  cases p with
  | idle => exact ⟨hrests.renew hrests.buf hrests.handles fun _ _ hv => hv, h.2⟩
  | opened b =>
    obtain ⟨m, L, hplaced, ho, hnone⟩ := h
    exact ⟨m, L, { hplaced.own rfl with
      rep := hplaced.rep.congr rfl rfl rfl hplaced.rep.cool rfl rfl rfl rfl
      active := fun hb => (hplaced.active hb).imp fun g hg => ⟨hg.file, hg.segment, hg.offset⟩
      ttl := rfl
      maxRecs := rfl }, ho, hnone⟩

/-- So does a lookup, which may drop an entry that has expired. -/
theorem Upheld.get (h : Upheld pre (.opened b) (st, fs)) (clk : Clock) (key : Buf) (out : Bool)
    (size : Nat) :
    Upheld pre (.opened b) (Prog.exec posix (Move.perform pre st (.get clk key out size)) fs) := by
  obtain ⟨m, L, hplaced, ho, hnone⟩ := h
  have hget := Env.plain_exec (Env.wp_seq (f := fun x : Option (Bytes × Nat) × Store => pure x.2)
    (@Rep.plain_get st fs L hplaced.rep clk key out size)
    fun x fs' hx => Env.wp_ret (Q := fun st' fs' => fs' = fs ∧
      ∃ idx, Drops clk.time st L idx ∧ st' = { st with index := idx }) hx)
  have hdone : ∀ x : Store × FileSystem, x.2 = fs ∧
      (∃ idx, Drops clk.time st L idx ∧ x.1 = { st with index := idx }) →
      Upheld pre (.opened b) x := by
    rintro ⟨_, _⟩ ⟨rfl, idx, hd, rfl⟩
    exact ⟨m, _, (hplaced.drops hd).own rfl, ho.narrow, hnone⟩
  exact hdone _ hget

/-- Closing the files leaves an object that is idle. -/
theorem Upheld.close {p : Phase} (h : Upheld pre p (st, fs)) :
    Upheld pre .idle (Prog.exec posix (Move.perform pre st .close) fs) := by
  have hrests := h.rests
  have hclose : Env.plain.wp st.close (fun st' fs' =>
      st' = { st with indexFile := none, activeFile := none } ∧ fs' = fs) fs :=
    wp_closeStore (Env.plain_reads fs) hrests.buf ⟨rfl, rfl⟩
  obtain ⟨hst, hfs⟩ := Env.plain_exec hclose
  change Store.Rests _ _ _ ∧ _
  rw [Move.perform, hst, hfs]
  exact ⟨hrests.renew hrests.buf rfl fun _ _ hv => hv, rfl⟩

/-- An operation of a run keeps it, if its calls spare the segments at and beyond the count. -/
theorem Upheld.performs {p : Phase} {mv : Move} (h : Upheld pre p (st, fs)) (op : Operation)
    (hp : p ≠ .idle) (hb : op.appends = true → p = .opened false) (hnamed : op.Named)
    (heq : mv.perform pre st = (st.setup pre).perform st op)
    (hsmall : ∀ x ∈ Prog.trace posix (mv.perform pre st) fs, st.Small x.2)
    (hcalls : ∀ (S : Path → Prop), st.Avoids S → 2 ≤ st.count →
      (mv.perform pre st).calls (Call.Spares S)) :
    ∃ b, p = .opened b ∧
      Upheld pre (.opened (op.detaches b)) (Prog.exec posix (mv.perform pre st) fs) := by
  cases p with
  | idle => exact absurd rfl hp
  | opened b =>
    obtain ⟨m, L, hplaced, ho, hnone⟩ := h
    refine ⟨b, rfl, Upheld.perform ⟨m, L, hplaced, ho, hnone⟩ heq (fun ha => ?_) hnamed hsmall
      (hcalls _ (Store.avoids_beyond hplaced.rep.disk.names) ho.two_le)⟩
    exact Phase.opened.inj (hb ha)

/-- **One move keeps the invariant.** -/
theorem Upheld.step {p : Phase} {mv : Move} (h : Upheld pre p (st, fs)) (hm : mv.Meets pre (st, fs))
    (hc : mv.Careful pre p (st, fs))
    (hsmall : ∀ x ∈ Prog.trace posix (mv.perform pre st) fs, (mv.configured pre st).Small x.2) :
    Upheld pre (mv.next p) (Prog.exec posix (mv.perform pre st) fs) := by
  cases mv with
  | construct segmentSize segmentCount order => exact ⟨h.rests.renew rfl rfl (empty_within _), rfl⟩
  | init clearOnInit segmentSize segmentCount => exact h.rests.init hm.1 hc hsmall
  | close => exact h.close
  | setTtlSecs ttl => exact h.policies ttl st.policyMaxRecs
  | setMaxRecs maxRecs => exact h.policies st.policyTtlSecs maxRecs
  | put clk key data ttl ts priority =>
    obtain ⟨rfl, hkey⟩ := hc
    obtain ⟨b, hb, h'⟩ := h.performs (.put clk key data ttl ts priority) nofun (fun _ => rfl) hkey rfl
      hsmall fun S ha htwo => Prog.calls_bind (spares_put ha htwo) fun _ => trivial
    obtain rfl := Phase.opened.inj hb
    exact h'
  | remove clk key junkTtl junkPriority =>
    obtain ⟨rfl, hkey⟩ := hc
    obtain ⟨b, hb, h'⟩ := h.performs (.remove clk key junkTtl junkPriority) nofun (fun _ => rfl) hkey
      rfl hsmall fun S ha htwo => Prog.calls_bind (spares_remove ha htwo) fun _ => trivial
    obtain rfl := Phase.opened.inj hb
    exact h'
  | clear =>
    obtain ⟨b, rfl, h'⟩ := h.performs .clear hc nofun trivial rfl hsmall fun S ha htwo =>
      spares_clear ha htwo
    exact h'
  | compact now =>
    obtain ⟨b, rfl, h'⟩ := h.performs (.compact now) hc nofun trivial rfl hsmall fun S ha htwo =>
      Prog.calls_bind (spares_compact ha htwo) fun _ => trivial
    exact h'
  | iterate =>
    obtain ⟨b, rfl, h'⟩ := h.performs .iterate hc nofun trivial rfl hsmall fun S ha htwo =>
      Prog.calls_bind spares_iterate fun _ => trivial
    exact h'
  | «exists» clk key =>
    obtain ⟨b, rfl, h'⟩ := h.performs (.exists clk key) hc nofun trivial rfl hsmall fun _ _ _ => trivial
    exact h'
  | get clk key out size =>
    cases p with
    | idle => exact absurd rfl hc
    | opened b => exact h.get clk key out size

/-- **A run keeps it.** -/
theorem Upheld.run {ms : List Move} {p : Phase} {s : Store × FileSystem} (h : Upheld pre p s)
    (hm : Move.MeetsAll pre ms s) (hc : Move.CarefulAll pre p ms s) :
    Upheld pre (ms.foldl Move.next p) (Move.run pre ms s) := by
  induction ms generalizing p s with
  | nil => exact h
  | cons mv ms ih =>
    obtain ⟨hcareful, hsmall, hrest⟩ := hc
    exact ih (h.step hm.1 hcareful hsmall) hm.2 hrest

/-- A new object, where there are no files under the prefix. -/
theorem Upheld.new (hn : NamesOk (pre.take (maxFilenameLen - 1)))
    (hfresh : ∀ a : StoreFile, a.Valid → fs.dir (storePath (pre.take (maxFilenameLen - 1)) a) = none)
    (segmentSize : UInt32) (segmentCount : UInt8) (order : IterationOrder) :
    Upheld pre .idle (Store.new segmentSize segmentCount order, fs) :=
  ⟨⟨hn, rfl, rfl, .of_none (hfresh .journal trivial), .inl hfresh⟩, rfl⟩

end upheld

/-! ## Losing no record -/

/-- No record of the store is out of reach. -/
structure Store.LosesNone (st : Store) (fs : FileSystem) : Prop where
  /-- Every index entry leads to a record. -/
  found : ∀ k v, st.indexFind k = some v → (st.entryView fs v).isSome
  /-- A compaction succeeds and keeps every record that is neither evicted nor expired, for the index,
  for the index file and for a scan of the segments. -/
  compacts : ∀ now, st.SmallAlong (st.compact now) fs →
    (Prog.exec posix (st.compact now) fs).1.1 = true ∧ st.CompactKeeps now fs
  /-- A rebuild from the segments alone finds every record. -/
  rebuilds : st.SmallAlong (Store.rebuildIndexFromSegments { st with index := ∅ }) fs →
    ∀ k v, st.indexFind k = some v →
      let s := Prog.exec posix (Store.rebuildIndexFromSegments { st with index := ∅ }) fs
      s.1.indexView s.1.index s.2 k = st.entryView fs v

section losing

variable {pre : Path} {su : Setup} {b : Bool} {m : Key → Option Record} {st : Store} {fs : FileSystem}
  {L : Log}

/-- In an ordered log with no segment beyond the count, a compaction can keep every record. -/
theorem Placed.survivable (h : Placed su b m st fs L) (ho : L.Ordered st.count st.currentSegment)
    (hnone : st.NoneBeyond fs) (now : UInt32) : st.Survivable now := by
  have hr := h.rep
  obtain ⟨n, idx, d, hprune, hw, -⟩ := prune_spec st
  have hw : st.pruneIndexToMaxRecs.2.index.Within st.index := by rw [hprune]; exact hw
  intro k v hv
  rw [hr.kept_eq hw, Option.map_eq_some_iff] at hv
  obtain ⟨t, ht, rfl⟩ := hv
  have hlive : L.live k = some t := Live.within_le k t (Option.filter_eq_some_iff.1 ht).1
  have hsaved := hr.disk.ok.sub k t hlive
  constructor
  · rw [← hr.disk.ok.key k t hsaved]
    exact ho.key_ne hsaved
  · obtain ⟨g, hg, -⟩ := ho.mem hsaved
    rw [hr.disk.indexValue_segment hlive]
    exact hr.disk.segs_lt hnone _ g hg

/-- A rebuild finds every record of an ordered log. -/
theorem Placed.rebuilds (h : Placed su b m st fs L) (ho : L.Ordered st.count st.currentSegment)
    (hsmall : st.SmallAlong (Store.rebuildIndexFromSegments { st with index := ∅ }) fs) {k : Key}
    {v : IndexValue} (hv : st.indexFind k = some v) :
    let s := Prog.exec posix (Store.rebuildIndexFromSegments { st with index := ∅ }) fs
    s.1.indexView s.1.index s.2 k = st.entryView fs v := by
  have hr := h.rep
  rw [Store.indexFind, hr.shows k, Option.map_eq_some_iff] at hv
  obtain ⟨t, ht, rfl⟩ := hv
  have hscan := ho.scan k t (hr.disk.ok.sub k t ht)
  have hdisk := hr.disk
  have hfits := h.fits
  rw [hr.entryView_eq ht]
  dsimp only
  -- of the store, a rebuild needs no more than the prefix and the count
  obtain ⟨st₀, hst₀⟩ : ∃ st₀ : Store, { st with index := ∅ } = st₀ := ⟨_, rfl⟩
  have hpre : st.basePrefix = st₀.basePrefix := by rw [← hst₀]
  have hcount : st.count = st₀.count := by rw [← hst₀]; rfl
  rw [hst₀] at hsmall ⊢
  rw [hpre, hcount] at hdisk hfits
  refine Env.exec_of_wp (E := su.env) (Q := fun (st' : Store) fs' =>
    st'.indexView st'.index fs' k = some t.record.facts) ?_
    fun x hx => (h.small_iff x.2).2 (hsmall.1 x hx)
  refine wp_rebuildIndexFromSegments hfits hdisk.files (ho.scannable _) (fun _ _ _ _ => trivial)
    fun idx es fs' _ hd _ hshows _ => ?_
  have hlive : (L.rebuilt st₀.count es).saved k = some t := hcount ▸ hscan
  have hidx : idx.lookup k = some t.indexValue := by
    rw [hshows k]
    exact congrArg (Option.map Located.indexValue) hlive
  have hfetch : Store.fetch { st₀ with index := idx, indexFile := none } fs' t.indexValue
      = some t.record.value := hd.fetch_eq (hd.ok.has k t hlive) (hd.ok.off k t hlive) rfl
  rw [Store.indexView]
  dsimp only
  rw [hidx, Option.bind_some, Store.entryView, hfetch]
  rfl

/-- The invariant in terms of the program. -/
theorem Upheld.losesNone (h : Upheld pre (.opened b) (st, fs)) : st.LosesNone fs := by
  obtain ⟨m, L, hplaced, ho, hnone⟩ := h
  have hr := hplaced.rep
  refine ⟨fun k v hv => ?_, fun now hsmall => ⟨?_, ?_⟩, fun hsmall k v hv => hplaced.rebuilds ho hsmall hv⟩
  · rw [Store.indexFind, hr.shows k, Option.map_eq_some_iff] at hv
    obtain ⟨t, ht, rfl⟩ := hv
    rw [hr.entryView_eq ht]
    rfl
  · exact (Env.plain_exec (plain_compact hr.disk.names hr.indexFile)).1
  · exact (hplaced.compactKeeps_iff (fun x hx => (hplaced.small_iff x.2).2 (hsmall.1 x hx))
      ((hplaced.small_iff _).2 hsmall.2)).2 (hplaced.survivable ho hnone now)

end losing

/-! ## Runs -/

/-- **No record lives outside the maintained segments.**

Whatever the files hold and whatever is done, the segments of the index entries and the current segment
are below the count of an opened store, if every `init` configures two segments or more and finds no
entry beyond them.  If the files are the store's own and the run is careful, no record is lost by a
compaction or a rebuild either. -/
theorem segments_maintained (pre : Path) (segmentSize : UInt32) (segmentCount : UInt8)
    (order : IterationOrder) (fs : FileSystem) (ms : List Move)
    (h : Move.MeetsAll pre ms (Store.new segmentSize segmentCount order, fs)) :
    let s := Move.run pre ms (Store.new segmentSize segmentCount order, fs)
    (s.1.valid = true → s.1.Inside) ∧
      (NamesOk (pre.take (maxFilenameLen - 1)) →
        (∀ a : StoreFile, a.Valid → fs.dir (storePath (pre.take (maxFilenameLen - 1)) a) = none) →
        Move.CarefulAll pre .idle ms (Store.new segmentSize segmentCount order, fs) →
        ms.foldl Move.next .idle ≠ .idle → s.1.LosesNone s.2) := by
  refine ⟨Move.run_inside h nofun, fun hn hfresh hc hopen => ?_⟩
  have hrun := (Upheld.new hn hfresh segmentSize segmentCount order).run h hc
  cases hphase : ms.foldl Move.next .idle with
  | idle => exact absurd hphase hopen
  | opened b =>
    rw [hphase] at hrun
    exact hrun.losesNone

/-- Three segments, then two of them, as the third was not yet in use, and then four.  A key is written again
under each count, a manual compaction comes between, and the last put finds more records than there may
be. -/
def sampleMoves : List Move :=
  [.init false 120 3, .put ⟨0, 0, 0⟩ (.at [97]) (.at [1]) 0 1 0,
    .put ⟨0, 0, 0⟩ (.at [98]) (.at [2]) 0 2 0, .put ⟨0, 0, 0⟩ (.at [99]) (.at [3]) 9 3 0,
    .put ⟨0, 0, 0⟩ (.at [97]) (.at [4]) 0 4 0, .close, .construct 65536 8 .recent, .init false 120 2,
    .remove ⟨5, 0, 0⟩ (.at [98]) 0 0, .compact 6, .get ⟨6, 0, 0⟩ (.at [97]) true 1024, .close,
    .init false 120 4, .put ⟨7, 0, 0⟩ (.at [98]) (.at [5]) 0 7 0, .setMaxRecs 2,
    .put ⟨8, 0, 0⟩ (.at [97]) (.at [6]) 0 8 0]

theorem segments_maintained_sample :
    let s := Move.run ['a'] sampleMoves (Store.new 65536 8 .recent, .empty)
    s.1.Inside ∧ s.1.LosesNone s.2 ∧
      s.1.index.entries.map (fun it => (it.1, it.2.segment.toNat, it.2.offset.toNat))
        = [([97], 0, 27), ([98], 0, 0)] ∧
      s.1.SmallAlong (s.1.compact 9) s.2 := by
  have h := segments_maintained ['a'] 65536 8 .recent .empty sampleMoves (by decide +kernel)
  exact ⟨h.1 (by decide +kernel), h.2 (namesOk_of_length_le (by decide)) (fun _ _ => rfl)
      (by decide +kernel) (by decide),
    by decide +kernel, by decide +kernel⟩

/-- With one segment, the store goes on in segment 1 after the record is written again. -/
def oneSegment : List Move :=
  [.init false 65536 1, .put ⟨0, 0, 0⟩ (.at [97]) (.at [1]) 0 1 0,
    .put ⟨0, 0, 0⟩ (.at [97]) (.at [2]) 0 2 0]

/-- Three segments are in use when the files are opened with two. -/
def fewerSegments : List Move :=
  [.init false 80 3, .put ⟨0, 0, 0⟩ (.at [97]) (.at [1]) 0 1 0, .put ⟨0, 0, 0⟩ (.at [98]) (.at [2]) 0 2 0,
    .put ⟨0, 0, 0⟩ (.at [99]) (.at [3]) 0 3 0, .put ⟨0, 0, 0⟩ (.at [100]) (.at [4]) 0 4 0,
    .put ⟨0, 0, 0⟩ (.at [101]) (.at [5]) 0 5 0, .close, .init false 80 2]

/-- In both runs a record is in a segment at or beyond the count.  In the second a compaction then loses
it, though it has no TTL and there is no limit on the records. -/
theorem segments_astray :
    ¬(Move.run ['a'] oneSegment (Store.new 65536 8 .recent, .empty)).1.Inside ∧
      ¬(Move.run ['a'] fewerSegments (Store.new 65536 8 .recent, .empty)).1.Inside ∧
      ¬(Move.run ['a'] fewerSegments (Store.new 65536 8 .recent, .empty)).1.LosesNone
        (Move.run ['a'] fewerSegments (Store.new 65536 8 .recent, .empty)).2 := by
  refine ⟨fun h => ?_, fun h => ?_, fun h => ?_⟩
  · have hcur := h.2
    revert hcur
    decide +kernel
  · have hseg : ∀ e ∈ (Move.run ['a'] fewerSegments (Store.new 65536 8 .recent, .empty)).1.indexFind [101],
        e.segment.toNat < 2 := fun e he => h.1 [101] e he
    revert hseg
    decide +kernel
  · obtain ⟨hok, hkeeps⟩ := h.compacts 0 (by decide +kernel)
    have hview := (hkeeps hok [101]).1
    revert hview
    decide +kernel

end MicroStore
