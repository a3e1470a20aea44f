import MicroStore.Clearing
import MicroStore.Library.Lockstep

/-!
# Opening files with a used object

`init` clears neither the index nor the counters of the object it is called on, and `close` does not
either.  Whatever is left in the index of a closed object stays there when an index file is loaded over
it, so what the opened store shows depends on the object's past.  The count of dead records and the
cooldown go on where they were, so the store may compact sooner or later than a new one would, and that
shows too: what has expired by then is gone from the index.

`init_agrees_iff` says when two objects agree nevertheless: `SameBehaviour` is the whole of it, the same
index, segment and offset and the same answers to whatever is called afterwards.

## What is here

* `Action`, `Store.actAll`: everything that can be called on an opened object, with what it answers.
* `Alike`: two stores that differ in nothing `init` reads but the index and, unless a proposition says
  so, in the members that `init` keeps.  The parts of `init` run in lockstep from there.
* `ResetsIndex`: the files on which `init` does not keep the old index.
* `LeftoversAgree`, `LeftoversSame`: the old indexes at the keys the index file does not mention, as maps
  and entry by entry.
* `SameKept`: the members that `init` leaves as they are.
-/

set_option autoImplicit false

namespace MicroStore

/-! ## What comes after -/

/-- What can be called on an object that has been opened. -/
inductive Action
  | put (clk : Clock) (key data : Buf) (ttl ts : UInt32) (priority : UInt8)
  | get (clk : Clock) (key : Buf)
  | «exists» (clk : Clock) (key : Buf)
  | remove (clk : Clock) (key : Buf) (junkTtl : UInt32) (junkPriority : UInt8)
  | size
  | iterate
  | clear
  | compact (now : UInt32)
  | setTtlSecs (ttl : UInt32)
  | setMaxRecs (maxRecs : UInt32)
  | close
  | init (pre : Path) (clearOnInit : Bool) (segmentSize : UInt32) (segmentCount : UInt8)

/-- Call it. -/
def Store.act (st : Store) : Action → FsM (Answer × Store)
  | .put clk key data ttl ts priority => do
    let (b, st) ← st.put clk key data ttl ts priority
    pure (.bool b, st)
  | .get clk key => do
    let (v, st) ← st.getValue clk key
    pure (.value v, st)
  | .exists clk key => pure (.bool (st.exists clk key).1, (st.exists clk key).2)
  | .remove clk key junkTtl junkPriority => do
    let (b, st) ← st.remove clk key junkTtl junkPriority
    pure (.bool b, st)
  | .size => pure (.number st.size, st)
  | .iterate => do
    let (es, st) ← st.iterate
    pure (.entries es, st)
  | .clear => do
    let st ← st.clear
    pure (.none, st)
  | .compact now => do
    let (b, st) ← st.compact now
    pure (.bool b, st)
  | .setTtlSecs ttl => pure (.none, st.setTtlSecs ttl)
  | .setMaxRecs maxRecs => pure (.none, st.setMaxRecs maxRecs)
  | .close => do
    let st ← st.close
    pure (.none, st)
  | .init pre clearOnInit segmentSize segmentCount => do
    let (b, st) ← st.init pre clearOnInit segmentSize segmentCount
    pure (.bool b, st)

/-- Call one after the other. -/
def Store.actAll (st : Store) : List Action → FsM (List Answer × Store)
  | [] => pure ([], st)
  | act :: rest => do
    let (a, st) ← st.act act
    let (as, st) ← st.actAll rest
    pure (a :: as, st)

/-! ## Two stores that differ in their past -/

/-- The members `init` reads, apart from the index, are the same, and those it keeps are if `p` holds. -/
structure Alike (p : Prop) (x y : Store) : Prop where
  /-- Both are valid or neither is. -/
  valid : x.valid = y.valid
  /-- Their files are the same. -/
  basePrefix : x.basePrefix = y.basePrefix
  /-- So is the number of segments. -/
  segmentCount : x.segmentCount = y.segmentCount
  /-- The active file is the same. -/
  activeFile : x.activeFile = y.activeFile
  /-- And the index file. -/
  indexFile : x.indexFile = y.indexFile
  /-- The policies are the same. -/
  policyTtlSecs : x.policyTtlSecs = y.policyTtlSecs
  /-- The one on the number too. -/
  policyMaxRecs : x.policyMaxRecs = y.policyMaxRecs
  /-- The same bytes are waiting. -/
  writeBuf : x.writeBuf = y.writeBuf
  /-- Their maps are iterated in one order. -/
  order : x.order = y.order
  /-- Under the condition, what `init` does not set is the same as well. -/
  kept : p → x.segmentSize = y.segmentSize ∧ x.compactInCooldown = y.compactInCooldown ∧
    x.compactCooldownStartMs = y.compactCooldownStartMs ∧ x.deadSinceCompact = y.deadSinceCompact

/-- The index, the active segment and its offset are the same. -/
structure SameState (x y : Store) : Prop where
  /-- Every key is mapped to the same entry, or to none. -/
  index : ∀ k, x.indexFind k = y.indexFind k
  /-- The same segment is written to. -/
  currentSegment : x.currentSegment = y.currentSegment
  /-- Writing goes on at the same offset. -/
  currentOffset : x.currentOffset = y.currentOffset

/-- Two `init`s leave their objects in the same state, with the same answers to every later call. -/
structure SameBehaviour (a b : (Bool × Store) × FileSystem) : Prop where
  /-- `init` returns the same. -/
  result : a.1.1 = b.1.1
  /-- The index, the segment and the offset. -/
  state : SameState a.1.2 b.1.2
  /-- Whatever is called afterwards. -/
  answers : ∀ acts, (Prog.exec posix (a.1.2.actAll acts) a.2).1.1
    = (Prog.exec posix (b.1.2.actAll acts) b.2).1.1

/-- `init` has returned the same, with the same index, and the same current segment if one is open. -/
structure SameOpened (p : Prop) (a b : Bool × Store) : Prop where
  /-- The same answer. -/
  result : a.1 = b.1
  /-- The other members agree. -/
  alike : Alike p a.2 b.2
  /-- The same index. -/
  index : a.2.index = b.2.index
  /-- The same place to write to, if there is one. -/
  segment : a.2.activeFile.isSome → a.2.currentSegment = b.2.currentSegment ∧
    a.2.currentOffset = b.2.currentOffset

/-- Nothing tells apart two stores that agree in all this. -/
theorem SameOpened.eq {p : Prop} {a b : Bool × Store} (h : SameOpened p a b) (hp : p)
    (hactive : a.2.activeFile.isSome) : a = b := by
  obtain ⟨r, x⟩ := a
  obtain ⟨r', y⟩ := b
  obtain ⟨rfl, halike, hindex, hsegment⟩ := h
  obtain ⟨hsize, hcool, hstart, hdead⟩ := halike.kept hp
  obtain ⟨hcur, hoff⟩ := hsegment hactive
  obtain ⟨hvalid, hpre, hcount, hfile, hifile, httl, hmax, hbuf, horder, -⟩ := halike
  cases x
  cases y
  dsimp only at *
  subst hsize hcool hstart hdead hcur hoff hvalid hpre hcount hfile hifile httl hmax hbuf horder hindex
  rfl

section alike

open Prog

variable {p : Prop} {x y : Store}

theorem removeSegments_congr (h : x.basePrefix = y.basePrefix) (n i : Nat) :
    x.removeSegments n i = y.removeSegments n i := by
  induction n generalizing i with
  | zero => rfl
  | succ n ih => rw [Store.removeSegments, Store.removeSegments, Store.segmentName, h, ih]

theorem resumeLoop_congr (h : x.basePrefix = y.basePrefix) (n i r : Nat) :
    x.resumeLoop n i r = y.resumeLoop n i r := by
  induction n generalizing i r with
  | zero => rfl
  | succ n ih =>
    rw [Store.resumeLoop, Store.resumeLoop, Store.segmentName, h]
    congr
    funext f
    cases f with
    | none => exact ih _ _
    | some f => simp only [ih]

theorem rebuildLoop_congr (h : x.basePrefix = y.basePrefix) (n seg : Nat) (idx : Index) :
    x.rebuildLoop n seg idx = y.rebuildLoop n seg idx := by
  induction n generalizing seg idx with
  | zero => rfl
  | succ n ih =>
    rw [Store.rebuildLoop, Store.rebuildLoop, Store.segmentName, h]
    congr
    funext f
    cases f with
    | none => exact ih _ _
    | some f => simp only [ih]

theorem Alike.items (h : Alike p x y) (hi : x.index = y.index) : x.items = y.items := by
  rw [Store.items, Store.items, h.order, hi]

theorem writeIndexBulk_congr (h : Alike p x y) (hi : x.index = y.index) :
    x.writeIndexBulk = y.writeIndexBulk := by
  rw [Store.writeIndexBulk, Store.writeIndexBulk, h.items hi, Store.indexName, h.basePrefix]

/-- The same index is pruned to the same. -/
theorem Alike.prune (h : Alike p x y) (hi : x.index = y.index) :
    x.pruneIndexToMaxRecs.1 = y.pruneIndexToMaxRecs.1 ∧
      Alike p x.pruneIndexToMaxRecs.2 y.pruneIndexToMaxRecs.2 ∧
      x.pruneIndexToMaxRecs.2.index = y.pruneIndexToMaxRecs.2.index := by
  have hsize : x.indexSize = y.indexSize := by rw [Store.indexSize, hi, Store.indexSize]
  have hbefore : x.itemEvictsBefore = y.itemEvictsBefore := by
    funext a b
    simp only [Store.itemEvictsBefore, Store.effectiveTtl, h.policyTtlSecs]
  simp only [Store.pruneIndexToMaxRecs, h.policyMaxRecs, hsize, h.items hi, hbefore, hi]
  split
  · exact ⟨rfl, h, hi⟩
  · refine ⟨rfl, ⟨h.valid, h.basePrefix, h.segmentCount, h.activeFile, h.indexFile, h.policyTtlSecs,
      rfl, h.writeBuf, h.order, fun hp => ?_⟩, rfl⟩
    obtain ⟨hsize, hcool, hstart, hdead⟩ := h.kept hp
    exact ⟨hsize, hcool, hstart, by rw [hdead]⟩

/-! ## The parts of `init` in lockstep -/

theorem lockstep_openIndexForAppend (h : Alike p x y) :
    Lockstep (fun a b => Alike p a b ∧ a.index = x.index ∧ b.index = y.index)
      x.openIndexForAppend y.openIndexForAppend := by
  have hname : x.indexName = y.indexName := congrArg (storePath · .index) h.basePrefix
  rw [Store.openIndexForAppend, Store.openIndexForAppend, hname]
  exact .seq fun f => .pure ⟨{ h with indexFile := rfl }, rfl, rfl⟩

/-- Once the file is open, what came before no longer shows. -/
theorem lockstep_openSegment (h : Alike p x y) (s : Nat) :
    Lockstep (fun a b => Alike p a.2 b.2 ∧ a.2.index = x.index ∧ b.2.index = y.index ∧
        (a.2.activeFile.isSome → a.2.currentSegment = b.2.currentSegment ∧
          a.2.currentOffset = b.2.currentOffset)) (x.openSegment s) (y.openSegment s) := by
  have hname : x.segmentName s = y.segmentName s :=
    congrArg (storePath · (.segment s)) h.basePrefix
  rw [Store.openSegment, Store.openSegment, hname, h.activeFile]
  refine .seq fun _ => .seq fun f => ?_
  cases f with
  | none => exact .pure ⟨{ h with activeFile := rfl }, rfl, rfl, by rintro ⟨⟩⟩
  | some f =>
    exact .seq fun f => .seq fun off =>
      .pure ⟨{ h with activeFile := rfl }, rfl, rfl, fun _ => ⟨rfl, rfl⟩⟩

/-- The files are opened alike, whatever the indexes hold. -/
theorem lockstep_openFiles (h : Alike p x y) :
    Lockstep (fun a b => a.1 = b.1 ∧ Alike p a.2 b.2 ∧ a.2.index = x.index ∧ b.2.index = y.index ∧
        (a.2.activeFile.isSome → a.2.currentSegment = b.2.currentSegment ∧
          a.2.currentOffset = b.2.currentOffset)) x.openFiles y.openFiles := by
  rw [Store.openFiles, Store.openFiles]
  refine (lockstep_openIndexForAppend h).bind ?_
  rintro a b ⟨hab, ha, hb⟩
  rw [resumeLoop_congr hab.basePrefix, Store.count, hab.segmentCount]
  refine .seq fun r => (lockstep_openSegment hab r).bind ?_
  rintro ⟨_, a'⟩ ⟨_, b'⟩ ⟨hab', ha', hb', hs⟩
  exact .pure ⟨rfl, hab', ha'.trans ha, hb'.trans hb, hs⟩

/-- The same index is pruned to the same, and opened to the same. -/
theorem lockstep_initTail (h : Alike p x y) (hi : x.index = y.index) :
    Lockstep (SameOpened p) x.initTail y.initTail := by
  have opened {x' y' : Store} (h' : Alike p x' y') (hi' : x'.index = y'.index) :
      Lockstep (SameOpened p) x'.openFiles y'.openFiles :=
    (lockstep_openFiles h').mono fun a b hab =>
      ⟨hab.1, hab.2.1, hab.2.2.1.trans (hi'.trans hab.2.2.2.1.symm), hab.2.2.2.2⟩
  obtain ⟨hn, hp, hpi⟩ := h.prune hi
  rw [Store.initTail, Store.initTail]
  generalize x.pruneIndexToMaxRecs = r at hn hp hpi
  generalize y.pruneIndexToMaxRecs = q at hn hp hpi
  obtain ⟨n, x'⟩ := r
  obtain ⟨m, y'⟩ := q
  obtain rfl : n = m := hn
  have hname : x'.indexName = y'.indexName := congrArg (storePath · .index) hp.basePrefix
  dsimp only
  split
  · rw [hname, writeIndexBulk_congr hp hpi]
    exact .seq fun _ => .seq fun _ => opened hp hpi
  · exact opened hp hpi

/-- Without a limit nothing is pruned, so the indexes stay what they are. -/
theorem lockstep_initTail_unlimited (h : Alike p x y) (hmax : x.policyMaxRecs = 0) :
    Lockstep (fun a b => a.2.index = x.index ∧ b.2.index = y.index ∧
        (a.2.activeFile.isSome → a.2.currentSegment = b.2.currentSegment ∧
          a.2.currentOffset = b.2.currentOffset)) x.initTail y.initTail := by
  rw [Store.initTail, Store.initTail, pruneIndexToMaxRecs_eq (.inl hmax),
    pruneIndexToMaxRecs_eq (.inl (h.policyMaxRecs ▸ hmax))]
  dsimp only
  rw [if_neg (Nat.lt_irrefl 0)]
  exact (lockstep_openFiles h).mono fun a b hab => hab.2.2

/-- Building the index anew does not look at the old one. -/
theorem lockstep_rebuildIndexFromSegments (h : Alike p x y) :
    Lockstep (fun a b => Alike p a b ∧ a.index = b.index)
      x.rebuildIndexFromSegments y.rebuildIndexFromSegments := by
  have hname : x.indexName = y.indexName := congrArg (storePath · .index) h.basePrefix
  have hcount : x.count = y.count := congrArg UInt8.toNat h.segmentCount
  rw [Store.rebuildIndexFromSegments, Store.rebuildIndexFromSegments,
    rebuildLoop_congr h.basePrefix, hcount]
  refine .seq fun idx => ?_
  have h' : Alike p { x with index := idx } { y with index := idx } := { h with }
  refine .seq_of_eq (congrArg closeFile h.indexFile) fun _ => ?_
  refine .seq_of_eq (congrArg removeFile hname) fun _ => ?_
  exact .seq_of_eq (writeIndexBulk_congr h' rfl) fun _ => .pure ⟨{ h with indexFile := rfl }, rfl⟩

/-- The commit of a compaction builds the index anew, or leaves the members alone. -/
theorem lockstep_finalizeCompaction (h : Alike p x y) (hi : x.indexFile = none) :
    Lockstep (fun a b => Alike p a b ∧ (a.index = b.index ∨ a.indexFile = none ∧ a = x ∧ b = y))
      x.finalizeCompaction y.finalizeCompaction := by
  have hname : x.indexName = y.indexName := congrArg (storePath · .index) h.basePrefix
  have hseg : x.segmentName 0 = y.segmentName 0 :=
    congrArg (storePath · (.segment 0)) h.basePrefix
  have htmp : x.tmpName = y.tmpName := congrArg (storePath · .tmp) h.basePrefix
  have hcount : x.count = y.count := congrArg UInt8.toNat h.segmentCount
  -- the part after the scan
  have rest (idx : Index) : Lockstep
      (fun a b => Alike p a b ∧ (a.index = b.index ∨ a.indexFile = none ∧ a = x ∧ b = y))
      (Store.rewriteIndex { x with index := idx }) (Store.rewriteIndex { y with index := idx }) := by
    have h' : Alike p { x with index := idx } { y with index := idx } := { h with }
    rw [Store.rewriteIndex, Store.rewriteIndex]
    refine .seq_of_eq (congrArg closeFile h.indexFile) fun _ => ?_
    refine .seq_of_eq (congrArg removeFile hname) fun _ => ?_
    refine .seq_of_eq (writeIndexBulk_congr h' rfl) fun _ =>
      (lockstep_openIndexForAppend h').bind ?_
    rintro a b ⟨hab, ha, hb⟩
    exact .pure ⟨{ hab with }, .inl (ha.trans hb.symm)⟩
  rw [Store.finalizeCompaction, Store.finalizeCompaction, removeSegments_congr h.basePrefix, hcount,
    htmp, hseg]
  refine .seq fun _ => .seq fun renamed => ?_
  cases renamed with
  | false => exact .seq fun _ => .pure ⟨h, .inr ⟨hi, rfl, rfl⟩⟩
  | true =>
    rw [if_neg (by decide), if_neg (by decide)]
    refine .seq_of_eq (congrArg (openFile · .read) hseg) fun f => ?_
    cases f with
    | none => exact rest ∅
    | some f => exact .seq fun p => .seq fun _ => rest p.2

/-- Recovery builds the index anew, or leaves the members alone. -/
theorem lockstep_recoverIfNeeded (h : Alike p x y) (hi : x.indexFile = none) :
    Lockstep (fun a b => Alike p a b ∧ (a.index = b.index ∨ a.indexFile = none ∧ a = x ∧ b = y))
      x.recoverIfNeeded y.recoverIfNeeded := by
  have hjournal : x.journalName = y.journalName := congrArg (storePath · .journal) h.basePrefix
  have hseg : x.segmentName 0 = y.segmentName 0 :=
    congrArg (storePath · (.segment 0)) h.basePrefix
  have htmp : x.tmpName = y.tmpName := congrArg (storePath · .tmp) h.basePrefix
  have hsame : Alike p x y ∧ (x.index = y.index ∨ x.indexFile = none ∧ x = x ∧ y = y) :=
    ⟨h, .inr ⟨hi, rfl, rfl⟩⟩
  rw [Store.recoverIfNeeded, Store.recoverIfNeeded, hjournal, htmp, hseg]
  refine .seq fun f => ?_
  cases f with
  | none => exact .pure hsame
  | some f =>
    refine .seq fun p => .seq fun _ => ?_
    dsimp only
    split
    · exact .seq fun _ => .pure hsame
    split
    · refine (lockstep_finalizeCompaction h hi).bind fun a b hab => ?_
      have hremove : removeFile a.journalName = removeFile b.journalName :=
        congrArg (fun p => removeFile (storePath p .journal)) hab.1.basePrefix
      exact .seq_of_eq hremove fun _ => .pure hab
    split
    · exact .seq fun _ => .seq fun _ => .pure hsame
    · refine .seq fun renamed => ?_
      cases renamed with
      | false => exact .pure hsame
      | true => exact .seq fun _ => .pure hsame

/-- `clear` on a closed store empties the index, and starts to count the dead records anew. -/
theorem lockstep_clear {q : Prop} (h : Alike q x y) (hk : p → x.segmentSize = y.segmentSize ∧
      x.compactInCooldown = y.compactInCooldown ∧
      x.compactCooldownStartMs = y.compactCooldownStartMs) (hx : x.Closed) (hv : x.valid = true) :
    Lockstep (fun a b => Alike p a b ∧ a.index = b.index ∧ a.indexFile = none) x.clear y.clear := by
  have hname : x.indexName = y.indexName := congrArg (storePath · .index) h.basePrefix
  have hcount : x.count = y.count := congrArg UInt8.toNat h.segmentCount
  have hclear (z : Store) (hz : z.Closed) (hv : z.valid = true) : z.clear = (do
      z.removeSegments z.count 0
      let _ ← removeFile z.indexName
      pure z.cleared) := by
    have h1 := hz.indexFile
    have h2 := hz.activeFile
    have h3 := hz.writeBuf
    cases z
    subst h1 h2 h3 hv
    rfl
  have hy : y.Closed := ⟨h.activeFile ▸ hx.activeFile, h.indexFile ▸ hx.indexFile,
    h.writeBuf ▸ hx.writeBuf⟩
  rw [hclear x hx hv, hclear y hy (h.valid ▸ hv)]
  refine .seq_of_eq (by rw [hcount, removeSegments_congr h.basePrefix]) fun _ => ?_
  refine .seq_of_eq (congrArg removeFile hname) fun _ => .pure ⟨?_, rfl, rfl⟩
  exact { h with
    activeFile := rfl
    indexFile := rfl
    writeBuf := rfl
    kept := fun hp => ⟨(hk hp).1, (hk hp).2.1, (hk hp).2.2, rfl⟩ }

/-- With the same index, nothing tells the stores apart. -/
theorem lockstep_initIndex (h : Alike p x y) (hi : x.index = y.index) :
    Lockstep (SameOpened p) x.initIndex y.initIndex := by
  have hload : Lockstep (fun a b => a.1 = b.1 ∧ Alike p a.2 b.2 ∧ a.2.index = b.2.index)
      x.loadIndex y.loadIndex := by
    have hname : x.indexName = y.indexName := congrArg (storePath · .index) h.basePrefix
    rw [Store.loadIndex, Store.loadIndex, hname, hi]
    refine .seq fun f => ?_
    cases f with
    | none => exact .pure ⟨rfl, h, hi⟩
    | some f => exact .seq fun idx => .seq fun _ => .pure ⟨rfl, { h with }, rfl⟩
  rw [Store.initIndex, Store.initIndex]
  refine hload.bind ?_
  rintro ⟨loaded, a⟩ ⟨_, b⟩ ⟨rfl, hab, hi⟩
  cases loaded with
  | true => exact lockstep_initTail hab hi
  | false =>
    exact (lockstep_rebuildIndexFromSegments hab).bind fun a b hab => lockstep_initTail hab.1 hab.2

end alike

/-! ## Loading over an index -/

theorem kerase_eq_filter {l : List IndexItem} (hl : l.NodupKeys) (k : Key) :
    l.kerase k = l.filter fun it => it.1 ≠ k := by
  induction l with
  | nil => rfl
  | cons it l ih =>
    rw [List.nodupKeys_cons] at hl
    by_cases hk : k = it.1
    · subst hk
      rw [List.kerase_cons_eq rfl, List.filter_cons_of_neg (by simp), List.filter_eq_self.2]
      intro it' hit'
      have hne : it'.1 ≠ it.1 := fun he => hl.1 (he ▸ List.mem_keys_of_mem hit')
      simpa using hne
    · rw [List.kerase_cons_ne hk, ih hl.2, List.filter_cons_of_pos (by simpa using Ne.symm hk)]

/-- An entry is put in front, or not at all, and what was there of its key goes. -/
theorem IndexEntry.exists_entries_apply (e : IndexEntry) : ∃ front : List IndexItem, ∀ i : Index,
    (e.apply i).entries = front ++ i.entries.filter fun it => it.1 ≠ e.key := by
  by_cases hrem : e.seg.toNat = deletedSeg
  · refine ⟨[], fun i => ?_⟩
    rw [IndexEntry.apply, if_pos hrem]
    exact kerase_eq_filter i.nodupKeys e.key
  · refine ⟨[⟨e.key, e.value⟩], fun i => ?_⟩
    rw [IndexEntry.apply, if_neg hrem, AList.entries_insert, kerase_eq_filter i.nodupKeys]
    rfl

/-- Two indexes with the same entries at the keys nothing is loaded for are loaded to the same. -/
theorem foldl_apply_eq {es : List IndexEntry} {i j : Index}
    (h : i.entries.filter (fun it => ∀ e ∈ es, e.key ≠ it.1)
      = j.entries.filter (fun it => ∀ e ∈ es, e.key ≠ it.1)) :
    es.foldl (fun idx e => e.apply idx) i = es.foldl (fun idx e => e.apply idx) j := by
  induction es generalizing i j with
  | nil =>
    refine AList.ext ?_
    simpa using h
  | cons e es ih =>
    refine ih ?_
    obtain ⟨front, hfront⟩ := e.exists_entries_apply
    have hboth (l : List IndexItem) : (l.filter fun it => it.1 ≠ e.key).filter
        (fun it => ∀ e' ∈ es, e'.key ≠ it.1) = l.filter fun it => ∀ e' ∈ e :: es, e'.key ≠ it.1 := by
      rw [List.filter_filter]
      refine List.filter_congr fun it _ => ?_
      simp only [List.forall_mem_cons, ← Bool.decide_and, ne_comm (a := it.1), and_comm]
    rw [hfront, hfront, List.filter_append, List.filter_append, hboth, hboth, h]

/-! ## What the recovery and the loading do to the members -/

/-- A compaction has been committed, and its `compact.tmp` is still there. -/
def Committed (pre : Path) (fs : FileSystem) : Prop :=
  ∃ bs, fs.file (storePath pre .journal) = some bs ∧ Journal.size ≤ bs.length ∧
    (Journal.decode (bs.take Journal.size)).magic = journalMagic ∧
    (Journal.decode (bs.take Journal.size)).state.toNat = JournalState.commit.code ∧
    fs.dir (storePath pre .tmp) ≠ none

section members

variable {st : Store} {fs : FileSystem}

/-- Unless it finishes a compaction, recovery changes neither the members nor the index file. -/
theorem wp_recover_keeps (hn : NamesOk st.basePrefix) (hlt : st.count < 256)
    (hnot : ¬Committed st.basePrefix fs) :
    Env.plain.wp st.recoverIfNeeded
      (fun x fs' => x = st ∧ Frame (Names st.basePrefix (· ≠ .index)) fs fs') fs := by
  have one (a : StoreFile) (ha : a ≠ .index) {fs' fs'' : FileSystem}
      (hf : Frame (Names st.basePrefix (· = a)) fs' fs'') :
      Frame (Names st.basePrefix (· ≠ .index)) fs' fs'' :=
    hf.mono fun p hp => hp.mono (fun b hb => hb ▸ ha) p
  rw [Store.recoverIfNeeded]
  refine wp_openRead (Env.plain_reads fs) (fun _ => Env.wp_ret ⟨rfl, Frame.refl _ _⟩) fun i hi _ => ?_
  refine wp_read (Env.plain_reads fs) rfl fun f' _ _ => wp_close (Env.plain_reads fs) ?_
  have hfile : fs.file st.journalName = some (fs.data i) := FileSystem.file_eq_some hi
  have hrest : Handle.rest ⟨i, 0, .read⟩ fs = fs.data i := rfl
  rw [hrest]
  dsimp only
  split
  · exact wp_remove (a := .journal) trivial (Env.plain_ok _ _) fun fs' _ hf _ =>
      Env.wp_ret ⟨rfl, one .journal (by simp) hf⟩
  next hvalid =>
  split
  · next hcommit =>
    have hlen : Journal.size ≤ (fs.data i).length := by
      by_contra hlt
      rw [List.take_of_length_le (by omega)] at hvalid
      exact hvalid (.inl (by omega))
    have hmagic : (Journal.decode ((fs.data i).take Journal.size)).magic = journalMagic := by
      by_contra h
      exact hvalid (.inr h)
    have htmp : fs.dir st.tmpName = none := by
      by_contra h
      exact hnot ⟨_, hfile, hlen, hmagic, hcommit, h⟩
    refine Prog.wp_bind.2 (wp_finalizeCompaction_missing hlt htmp (fun _ _ => Env.plain_ok _ _)
      (fun _ _ _ => Env.plain_ok _ _) fun fs1 hf1 _ => ?_)
    refine wp_remove (a := .journal) trivial (Env.plain_ok _ _) fun fs2 _ hf2 _ => Env.wp_ret ⟨rfl, ?_⟩
    refine (hf1.mono fun p hp => hp.mono (fun a ha => by rintro rfl; exact ha) p).trans ?_
    have htmp : Frame (Names st.basePrefix (· = .tmp)) fs1 (fs1.unlink st.tmpName) :=
      Frame.unlink (mem_names (by exact trivial) rfl)
    exact (one .tmp (by simp) htmp).trans (one .journal (by simp) hf2)
  split
  · refine wp_remove (a := .tmp) trivial (Env.plain_ok _ _) fun fs1 _ hf1 _ => ?_
    exact wp_remove (a := .journal) trivial (Env.plain_ok _ _) fun fs2 _ hf2 _ =>
      Env.wp_ret ⟨rfl, (one .tmp (by simp) hf1).trans (one .journal (by simp) hf2)⟩
  cases htmp : fs.dir st.tmpName with
  | none => exact wp_rename_missing htmp (Env.plain_ok _ _) (Env.wp_ret ⟨rfl, Frame.refl _ _⟩)
  | some j =>
    have hzero : (0 : Nat) < 256 := by decide
    refine wp_rename (a := .tmp) (b := .segment 0) trivial hzero (hn.ne trivial hzero (by simp)) htmp
      (Env.plain_ok _ _) fun fs1 hf1 _ _ _ => ?_
    rw [if_neg (by decide)]
    refine wp_remove (a := .journal) trivial (Env.plain_ok _ _) fun fs2 _ hf2 _ => Env.wp_ret ⟨rfl, ?_⟩
    exact (hf1.mono fun p hp => hp.mono (fun a ha => by rcases ha with rfl | rfl <;> simp) p).trans
      (one .journal (by simp) hf2)

/-- When recovery finishes a compaction, the index file has been opened. -/
theorem wp_recover_committed (hn : NamesOk st.basePrefix) (hlt : st.count < 256)
    (hc : Committed st.basePrefix fs) :
    Env.plain.wp st.recoverIfNeeded (fun x _ => x.indexFile.isSome) fs := by
  obtain ⟨bs, hfile, hlen, hmagic, hcommit, htmp⟩ := hc
  obtain ⟨i, hi, hdata⟩ := Option.map_eq_some_iff.1 hfile
  obtain ⟨j, hj⟩ := Option.ne_none_iff_exists'.1 htmp
  have hzero : (0 : Nat) < 256 := by decide
  rw [Store.recoverIfNeeded]
  refine wp_openRead (Env.plain_reads fs) (fun h => absurd (hi.symm.trans h) (by simp)) fun i' hi' _ => ?_
  obtain rfl : i = i' := Option.some.inj (hi.symm.trans hi')
  refine wp_read (Env.plain_reads fs) rfl fun f' _ _ => wp_close (Env.plain_reads fs) ?_
  have hrest : Handle.rest ⟨i, 0, .read⟩ fs = bs := hdata
  have hvalid : ¬((bs.take Journal.size).length ≠ Journal.size ∨
      (Journal.decode (bs.take Journal.size)).magic ≠ journalMagic) := by
    rw [List.length_take, Nat.min_eq_left hlen]
    exact not_or.2 ⟨not_not.2 rfl, not_not.2 hmagic⟩
  rw [hrest]
  dsimp only
  rw [if_neg hvalid, if_pos hcommit, Store.finalizeCompaction]
  refine Prog.wp_bind.2 (Prog.wp_bind.2 (wp_removeSegments (Nat.zero_add _) (Nat.le_of_lt hlt)
    (fun s fs' _ => Env.plain_ok _ _) fun fs1 hf1 _ _ => ?_))
  have hj1 : fs1.dir st.tmpName = some j := (hf1.dir (hn.not_mem .tmp trivial id)).trans hj
  refine wp_rename (a := .tmp) (b := .segment 0) trivial hzero (hn.ne trivial hzero (by simp)) hj1
    (Env.plain_ok _ _) fun fs2 _ _ _ _ => ?_
  rw [if_neg (by decide)]
  -- whatever the scan finds, the index file is opened in the end
  have rest (idx : Index) (fs' : FileSystem) :
      Env.plain.wp (Store.rewriteIndex { st with index := idx }) (fun x fs' => Env.plain.wp (do
        let _ ← removeFile x.journalName
        pure x) (fun x _ => x.indexFile.isSome) fs') fs' := by
    rw [Store.rewriteIndex]
    refine wp_closeFile (Env.plain_reads _) ?_
    refine Env.wp_call trivial id fun _ => ?_
    refine Env.wp_seq (Env.plain_wp _ _) fun _ fs3 _ => ?_
    rw [Store.openIndexForAppend]
    refine Prog.wp_bind.2 (wp_openKeep (a := .index) trivial rfl rfl (Env.plain_ok _ _)
      fun fs4 k _ _ _ _ => ?_)
    exact Env.wp_call trivial id fun _ => Env.wp_ret rfl
  refine wp_openRead (Env.plain_reads fs2) (fun _ => rest ∅ fs2) fun k _ _ => ?_
  refine Env.wp_seq (Env.plain_wp _ _) fun y fs3 _ => ?_
  exact wp_close (Env.plain_reads fs3) (rest y.2 fs3)

/-- An index file is replayed over what the index holds. -/
theorem wp_loadIndex_file {i : Nat} (hi : fs.dir st.indexName = some i) :
    Env.plain.wp st.loadIndex (fun x fs' =>
      x = (true, { st with index := load loopFuel (fs.data i) st.index }) ∧ fs' = fs) fs := by
  rw [Store.loadIndex]
  refine wp_openRead (Env.plain_reads fs) (fun h => absurd (hi.symm.trans h) (by simp)) fun j hj _ => ?_
  obtain rfl : i = j := Option.some.inj (hi.symm.trans hj)
  refine Prog.wp_bind.2 (wp_loadLoop (Env.plain_reads fs) _ rfl ?_)
  exact wp_close (Env.plain_reads fs) (Env.wp_ret ⟨rfl, rfl⟩)

/-- `init` ends with a segment open. -/
theorem wp_initTail_active : Env.plain.wp st.initTail (fun x _ => x.2.activeFile.isSome) fs := by
  have tail (st : Store) (fs : FileSystem) : Env.plain.wp st.openFiles
      (fun x _ => x.2.activeFile.isSome) fs := by
    rw [Store.openFiles]
    refine Env.wp_seq (Env.plain_wp _ _) fun st1 fs1 _ => ?_
    refine Env.wp_seq (Env.plain_wp _ _) fun r fs2 _ => ?_
    rw [Store.openSegment]
    refine Prog.wp_bind.2 (wp_closeFile (Env.plain_reads _) ?_)
    refine Env.wp_call trivial id fun _ => ?_
    rw [posix]
    cases fs2.dir (st1.segmentName r) with
    | none => exact Env.wp_call trivial id fun _ => Env.wp_call trivial id fun _ => Env.wp_ret rfl
    | some i => exact Env.wp_call trivial id fun _ => Env.wp_call trivial id fun _ => Env.wp_ret rfl
  rw [Store.initTail]
  dsimp only
  split
  · exact Env.wp_seq (Env.plain_wp _ _) fun _ _ _ => Env.wp_seq (Env.plain_wp _ _) fun _ fs' _ =>
      tail _ fs'
  · exact tail _ fs

theorem wp_initIndex_active : Env.plain.wp st.initIndex (fun x _ => x.2.activeFile.isSome) fs := by
  rw [Store.initIndex]
  refine Env.wp_seq (Env.plain_wp _ _) ?_
  rintro ⟨loaded, st'⟩ fs1 -
  cases loaded with
  | true => exact wp_initTail_active
  | false => exact Env.wp_seq (Env.plain_wp _ _) fun _ _ _ => wp_initTail_active

end members

/-! ## Two stores opened on the same files -/

/-- `init` does not keep the old index: the files are cleared, there is no index file, or recovery
finishes a compaction. -/
def ResetsIndex (pre : Path) (clearOnInit : Bool) (fs : FileSystem) : Prop :=
  clearOnInit = true ∨ fs.dir (storePath pre .index) = none ∨ Committed pre fs

/-- The two old indexes say the same of the keys that no entry of the index file mentions. -/
def LeftoversAgree (pre : Path) (fs : FileSystem) (i j : Index) : Prop :=
  ∀ bs, fs.file (storePath pre .index) = some bs → ∀ k,
    (∀ e ∈ loadedEntries loopFuel bs, e.key ≠ k) → i.lookup k = j.lookup k

/-- The two old indexes have the same entries, in the same order, at the keys that no entry of the index
file mentions. -/
def LeftoversSame (pre : Path) (fs : FileSystem) (i j : Index) : Prop :=
  ∀ bs, fs.file (storePath pre .index) = some bs →
    i.entries.filter (fun it => ∀ e ∈ loadedEntries loopFuel bs, e.key ≠ it.1)
      = j.entries.filter (fun it => ∀ e ∈ loadedEntries loopFuel bs, e.key ≠ it.1)

section opening

open Prog

variable {p : Prop} {x y : Store} {fs : FileSystem}

/-- Two openings in lockstep lead to the same state, and to the same behaviour if nothing that is kept
differs. -/
theorem behaves_of_lockstep {l r : FsM (Bool × Store)} (h : Lockstep (SameOpened p) l r)
    (hactive : Env.plain.wp l (fun a _ => a.2.activeFile.isSome) fs) :
    SameState (exec posix l fs).1.2 (exec posix r fs).1.2 ∧
      (p → SameBehaviour (exec posix l fs) (exec posix r fs)) := by
  obtain ⟨hopened, hfs⟩ := h.exec posix fs
  have hopen := @Env.plain_exec _ _ (fun (a : Bool × Store) _ => a.2.activeFile.isSome) fs hactive
  have hstate : SameState (exec posix l fs).1.2 (exec posix r fs).1.2 :=
    ⟨fun k => congrArg (AList.lookup k) hopened.index, (hopened.segment hopen).1,
      (hopened.segment hopen).2⟩
  refine ⟨hstate, fun hp => ⟨hopened.result, hstate, fun acts => ?_⟩⟩
  rw [hopened.eq hp hopen, hfs]

theorem wp_initFiles_active (st : Store) (c : Bool) (fs : FileSystem) :
    Env.plain.wp (st.initFiles c) (fun a _ => a.2.activeFile.isSome) fs := by
  rw [Store.initFiles]
  have rest (st : Store) (fs : FileSystem) : Env.plain.wp (st.recoverIfNeeded >>= Store.initIndex)
      (fun a _ => a.2.activeFile.isSome) fs :=
    Env.wp_seq (Env.plain_wp _ _) fun _ _ _ => wp_initIndex_active
  split
  · exact Env.wp_seq (Env.plain_wp _ _) fun _ _ _ => rest _ _
  · exact rest _ _

/-- Behind the same index, everything is in lockstep. -/
theorem lockstep_recovered (h : Alike p x y) (hnone : x.indexFile = none) (hi : x.index = y.index) :
    Lockstep (SameOpened p) (x.recoverIfNeeded >>= Store.initIndex)
      (y.recoverIfNeeded >>= Store.initIndex) := by
  refine (lockstep_recoverIfNeeded h hnone).bind ?_
  rintro a b ⟨hab, hidx⟩
  refine lockstep_initIndex hab (hidx.elim id ?_)
  rintro ⟨-, rfl, rfl⟩
  exact hi

theorem initFiles_false (x : Store) :
    x.initFiles false = x.recoverIfNeeded >>= Store.initIndex := rfl

theorem behaves_of_clear {q : Prop} (h : Alike q x y) (hk : p → x.segmentSize = y.segmentSize ∧
      x.compactInCooldown = y.compactInCooldown ∧
      x.compactCooldownStartMs = y.compactCooldownStartMs) (hx : x.Closed) (hv : x.valid = true) :
    SameState (exec posix (x.initFiles true) fs).1.2 (exec posix (y.initFiles true) fs).1.2 ∧
      (p → SameBehaviour (exec posix (x.initFiles true) fs) (exec posix (y.initFiles true) fs)) := by
  refine behaves_of_lockstep ((lockstep_clear h hk hx hv).bind ?_) (wp_initFiles_active x true fs)
  rintro a b ⟨hab, hi, hnone⟩
  exact lockstep_recovered hab hnone hi

theorem behaves_of_committed (h : Alike p x y) (hx : x.Closed) (hn : NamesOk x.basePrefix)
    (hc : Committed x.basePrefix fs) :
    SameState (exec posix (x.initFiles false) fs).1.2 (exec posix (y.initFiles false) fs).1.2 ∧
      (p → SameBehaviour (exec posix (x.initFiles false) fs)
        (exec posix (y.initFiles false) fs)) := by
  obtain ⟨⟨hab, hidx⟩, hfs⟩ := (lockstep_recoverIfNeeded h hx.indexFile).exec posix fs
  have hsome := @Env.plain_exec _ _ (fun (a : Store) _ => a.indexFile.isSome) fs
    (wp_recover_committed hn x.segmentCount.toNat_lt hc)
  rw [initFiles_false, initFiles_false, exec_bind, exec_bind, ← hfs]
  refine behaves_of_lockstep (lockstep_initIndex hab (hidx.resolve_right ?_)) wp_initIndex_active
  rintro ⟨hnone, -⟩
  rw [hnone] at hsome
  cases hsome

/-- Without a compaction to finish, both stores find the index file as it was. -/
theorem recover_keeps (h : Alike p x y) (hx : x.Closed) (hn : NamesOk x.basePrefix)
    (hc : ¬Committed x.basePrefix fs) :
    ∃ fs', exec posix x.recoverIfNeeded fs = (x, fs') ∧ exec posix y.recoverIfNeeded fs = (y, fs') ∧
      Frame (Names x.basePrefix (· ≠ .index)) fs fs' := by
  obtain ⟨hx1, hf⟩ := @Env.plain_exec _ _ (fun (a : Store) fs' => a = x ∧
    Frame (Names x.basePrefix (· ≠ .index)) fs fs') fs
    (wp_recover_keeps hn x.segmentCount.toNat_lt hc)
  obtain ⟨hy1, -⟩ := @Env.plain_exec _ _ (fun (a : Store) fs' => a = y ∧
    Frame (Names y.basePrefix (· ≠ .index)) fs fs') fs
    (wp_recover_keeps (h.basePrefix ▸ hn) y.segmentCount.toNat_lt (h.basePrefix ▸ hc))
  have hfs := ((lockstep_recoverIfNeeded h hx.indexFile).exec posix fs).2
  exact ⟨_, Prod.ext hx1 rfl, Prod.ext hy1 hfs.symm, hf⟩

/-- The index file is missing. -/
theorem initIndex_missing (hnone : fs.dir x.indexName = none) :
    exec posix x.initIndex fs
      = exec posix (x.rebuildIndexFromSegments >>= Store.initTail) fs := by
  have hload := @Env.plain_exec _ _ (fun (a : Bool × Store) fs' => a = (false, x) ∧ fs' = fs) fs
    (wp_loadIndex_missing (Env.plain_reads fs) hnone ⟨rfl, rfl⟩)
  rw [Store.initIndex, exec_bind, hload.1, hload.2]
  rfl

/-- The index file is there. -/
theorem initIndex_file {i : Nat} (hi : fs.dir x.indexName = some i) :
    exec posix x.initIndex fs = exec posix
      (Store.initTail { x with index := load loopFuel (fs.data i) x.index }) fs := by
  have hload := @Env.plain_exec _ _ (fun (a : Bool × Store) fs' =>
    a = (true, { x with index := load loopFuel (fs.data i) x.index }) ∧ fs' = fs) fs
    (wp_loadIndex_file hi)
  rw [Store.initIndex, exec_bind, hload.1, hload.2]
  rfl

theorem behaves_of_missing (h : Alike p x y) (hx : x.Closed) (hn : NamesOk x.basePrefix)
    (hc : ¬Committed x.basePrefix fs) (hnone : fs.dir x.indexName = none) :
    SameState (exec posix (x.initFiles false) fs).1.2 (exec posix (y.initFiles false) fs).1.2 ∧
      (p → SameBehaviour (exec posix (x.initFiles false) fs)
        (exec posix (y.initFiles false) fs)) := by
  obtain ⟨fs', hxr, hyr, hf⟩ := recover_keeps h hx hn hc
  have hx' : fs'.dir x.indexName = none :=
    (hf.dir (hn.not_mem .index trivial (by simp))).trans hnone
  have hy' : fs'.dir y.indexName = none := by
    rw [Store.indexName, ← h.basePrefix]
    exact hx'
  rw [initFiles_false, initFiles_false, exec_bind, exec_bind, hxr, hyr]
  dsimp only
  rw [initIndex_missing hx', initIndex_missing hy']
  refine behaves_of_lockstep ((lockstep_rebuildIndexFromSegments h).bind ?_)
    (Env.wp_seq (Env.plain_wp _ _) fun _ _ _ => wp_initTail_active)
  rintro a b ⟨hab, hi⟩
  exact lockstep_initTail hab hi

/-- Where the index file is loaded over what the index holds, the rest of `init` finds two stores that
differ in what was left. -/
theorem exec_initFiles_load (h : Alike p x y) (hx : x.Closed) (hn : NamesOk x.basePrefix)
    (hreset : ¬ResetsIndex x.basePrefix false fs) :
    ∃ i fs', fs.file (storePath x.basePrefix .index) = some (fs.data i) ∧
      exec posix (x.initFiles false) fs = exec posix
        (Store.initTail { x with index := load loopFuel (fs.data i) x.index }) fs' ∧
      exec posix (y.initFiles false) fs = exec posix
        (Store.initTail { y with index := load loopFuel (fs.data i) y.index }) fs' := by
  have hc : ¬Committed x.basePrefix fs := fun hc => hreset (.inr (.inr hc))
  obtain ⟨i, hi⟩ := Option.ne_none_iff_exists'.1 fun hnone => hreset (.inr (.inl hnone))
  obtain ⟨fs', hxr, hyr, hf⟩ := recover_keeps h hx hn hc
  have hindex := hn.not_mem (S := (· ≠ .index)) .index trivial (by simp)
  have hx' : fs'.dir x.indexName = some i := (hf.dir hindex).trans hi
  have hy' : fs'.dir y.indexName = some i := by
    rw [Store.indexName, ← h.basePrefix]
    exact hx'
  have hdata : fs'.data i = fs.data i := hf.data hindex hi
  refine ⟨i, fs', FileSystem.file_eq_some hi, ?_, ?_⟩
  · rw [initFiles_false, exec_bind, hxr]
    dsimp only
    rw [initIndex_file hx', hdata]
  · rw [initFiles_false, exec_bind, hyr]
    dsimp only
    rw [initIndex_file hy', hdata]

/-- With the same leftovers, nothing tells the stores apart. -/
theorem behaves_of_leftovers (h : Alike p x y) (hx : x.Closed) (hn : NamesOk x.basePrefix)
    (hreset : ¬ResetsIndex x.basePrefix false fs)
    (hsame : LeftoversSame x.basePrefix fs x.index y.index) :
    SameState (exec posix (x.initFiles false) fs).1.2 (exec posix (y.initFiles false) fs).1.2 ∧
      (p → SameBehaviour (exec posix (x.initFiles false) fs)
        (exec posix (y.initFiles false) fs)) := by
  obtain ⟨i, fs', hfile, hx', hy'⟩ := exec_initFiles_load h hx hn hreset
  rw [hx', hy']
  have h' : Alike p { x with index := load loopFuel (fs.data i) x.index }
      { y with index := load loopFuel (fs.data i) y.index } := { h with }
  refine behaves_of_lockstep (lockstep_initTail h' ?_) wp_initTail_active
  dsimp only
  rw [load_eq_foldl, load_eq_foldl, foldl_apply_eq (hsame _ hfile)]

/-- When the index file is loaded over what the index holds, the leftovers decide. -/
theorem sameState_iff_leftovers (h : Alike p x y) (hx : x.Closed) (hn : NamesOk x.basePrefix)
    (hmax : x.policyMaxRecs = 0) (hreset : ¬ResetsIndex x.basePrefix false fs) :
    SameState (exec posix (x.initFiles false) fs).1.2 (exec posix (y.initFiles false) fs).1.2 ↔
      LeftoversAgree x.basePrefix fs x.index y.index := by
  obtain ⟨i, fs', hfile, hx', hy'⟩ := exec_initFiles_load h hx hn hreset
  rw [hx', hy']
  have h' : Alike p { x with index := load loopFuel (fs.data i) x.index }
      { y with index := load loopFuel (fs.data i) y.index } := { h with }
  obtain ⟨⟨hxi, hyi, hact⟩, -⟩ := (lockstep_initTail_unlimited h' hmax).exec posix fs'
  have hopen := @Env.plain_exec _ _ (fun (a : Bool × Store) _ => a.2.activeFile.isSome) fs'
    (@wp_initTail_active { x with index := load loopFuel (fs.data i) x.index } fs')
  have hiff (k : Key) : (load loopFuel (fs.data i) x.index).lookup k
        = (load loopFuel (fs.data i) y.index).lookup k ↔
      (∀ e ∈ loadedEntries loopFuel (fs.data i), e.key ≠ k) → x.index.lookup k = y.index.lookup k := by
    rw [load_eq_foldl, load_eq_foldl]
    exact foldl_apply_lookup_eq_iff
  constructor
  · intro hs bs hbs k
    obtain rfl : fs.data i = bs := Option.some.inj (hfile.symm.trans hbs)
    refine (hiff k).1 ?_
    have hk := hs.index k
    rwa [Store.indexFind, Store.indexFind, hxi, hyi] at hk
  · intro hl
    refine ⟨fun k => ?_, (hact hopen).1, (hact hopen).2⟩
    rw [Store.indexFind, Store.indexFind, hxi, hyi]
    exact (hiff k).2 (hl _ hfile k)

/-- `init` configures the store and creates the directory, which leaves the files alone. -/
theorem exec_init (st : Store) (pre : Path) (c : Bool) (segmentSize : UInt32) (segmentCount : UInt8) :
    exec posix (st.init pre c segmentSize segmentCount) fs
      = exec posix ((st.configured pre segmentSize segmentCount).initFiles c) fs := by
  rw [Store.init_eq]
  dsimp only
  split
  · exact exec_bind posix (makeDir _) _ fs
  · rfl

end opening

/-- The policies of two objects, the iteration order of their maps among them, are the same. -/
structure SamePolicies (x y : Store) : Prop where
  /-- The TTL. -/
  policyTtlSecs : x.policyTtlSecs = y.policyTtlSecs
  /-- The limit on the records. -/
  policyMaxRecs : x.policyMaxRecs = y.policyMaxRecs
  /-- The order of iteration. -/
  order : x.order = y.order

/-- The members that `init` leaves as they are agree: the segment size, unless one is given, the cooldown,
and the count of dead records, unless the files are cleared. -/
structure SameKept (clearOnInit : Bool) (segmentSize : UInt32) (x y : Store) : Prop where
  /-- Decides when a segment is full. -/
  segmentSize : segmentSize ≠ 0 ∨ x.segmentSize = y.segmentSize
  /-- Is an automatic compaction put off? -/
  compactInCooldown : x.compactInCooldown = y.compactInCooldown
  /-- Since when. -/
  compactCooldownStartMs : x.compactCooldownStartMs = y.compactCooldownStartMs
  /-- Decides when a put or a remove compacts. -/
  deadSinceCompact : clearOnInit = true ∨ x.deadSinceCompact = y.deadSinceCompact

theorem SameKept.configured {x y : Store} {clearOnInit : Bool} {segmentSize : UInt32}
    (h : SameKept clearOnInit segmentSize x y) (pre : Path) (segmentCount : UInt8) :
    (x.configured pre segmentSize segmentCount).segmentSize
        = (y.configured pre segmentSize segmentCount).segmentSize ∧
      (x.configured pre segmentSize segmentCount).compactInCooldown
        = (y.configured pre segmentSize segmentCount).compactInCooldown ∧
      (x.configured pre segmentSize segmentCount).compactCooldownStartMs
        = (y.configured pre segmentSize segmentCount).compactCooldownStartMs := by
  refine ⟨?_, h.compactInCooldown, h.compactCooldownStartMs⟩
  rcases h.segmentSize with h0 | he
  · exact (if_pos h0).trans (if_pos h0).symm
  · rw [Store.configured, Store.configured, he]

theorem SamePolicies.alike {x y : Store} (h : SamePolicies x y) (hx : x.Closed) (hy : y.Closed)
    {segmentCount : UInt8} (hcount : segmentCount ≠ 0 ∨ x.segmentCount = y.segmentCount)
    (pre : Path) (segmentSize : UInt32) :
    Alike (SameKept false segmentSize x y) (x.configured pre segmentSize segmentCount)
      (y.configured pre segmentSize segmentCount) where
  valid := rfl
  basePrefix := rfl
  segmentCount := by
    rcases hcount with h0 | he
    · exact (if_pos h0).trans (if_pos h0).symm
    · rw [Store.configured, Store.configured, he]
  activeFile := hx.activeFile.trans hy.activeFile.symm
  indexFile := hx.indexFile.trans hy.indexFile.symm
  policyTtlSecs := h.policyTtlSecs
  policyMaxRecs := h.policyMaxRecs
  writeBuf := hx.writeBuf.trans hy.writeBuf.symm
  order := h.order
  kept hk := ⟨(hk.configured pre segmentCount).1, (hk.configured pre segmentCount).2.1,
    (hk.configured pre segmentCount).2.2, hk.deadSinceCompact.resolve_left Bool.false_ne_true⟩

/-- **When `init` depends on the files alone.**  Two closed objects opened on the same files are the same
in their state and in all later answers if the index is built anew, or the old indexes have the same
entries at the keys the index file does not mention, and the members agree that `init` leaves as they
are.  The condition on the index is needed for the state alone: without a limit on the records it is the
same exactly if the index is built anew or the old indexes agree at the keys that the index file does
not mention. -/
theorem init_agrees_iff {x y : Store} (hx : x.Closed) (hy : y.Closed) (hp : SamePolicies x y)
    (pre : Path) (clearOnInit : Bool) (segmentSize : UInt32) (segmentCount : UInt8)
    (hcount : segmentCount ≠ 0 ∨ x.segmentCount = y.segmentCount)
    (hn : NamesOk (pre.take (maxFilenameLen - 1))) (fs : FileSystem) :
    (ResetsIndex (pre.take (maxFilenameLen - 1)) clearOnInit fs ∨
        LeftoversSame (pre.take (maxFilenameLen - 1)) fs x.index y.index →
      SameKept clearOnInit segmentSize x y →
      SameBehaviour (Prog.exec posix (x.init pre clearOnInit segmentSize segmentCount) fs)
        (Prog.exec posix (y.init pre clearOnInit segmentSize segmentCount) fs)) ∧
    (x.policyMaxRecs = 0 →
      (SameState (Prog.exec posix (x.init pre clearOnInit segmentSize segmentCount) fs).1.2
          (Prog.exec posix (y.init pre clearOnInit segmentSize segmentCount) fs).1.2 ↔
        ResetsIndex (pre.take (maxFilenameLen - 1)) clearOnInit fs ∨
          LeftoversAgree (pre.take (maxFilenameLen - 1)) fs x.index y.index)) := by
  have h := hp.alike hx hy hcount pre segmentSize
  have hxc : (x.configured pre segmentSize segmentCount).Closed :=
    ⟨hx.activeFile, hx.indexFile, hx.writeBuf⟩
  rw [exec_init, exec_init]
  have resets (hr : ResetsIndex (pre.take (maxFilenameLen - 1)) clearOnInit fs) :
      SameState
        (Prog.exec posix ((x.configured pre segmentSize segmentCount).initFiles clearOnInit) fs).1.2
        (Prog.exec posix ((y.configured pre segmentSize segmentCount).initFiles clearOnInit) fs).1.2 ∧
      (SameKept clearOnInit segmentSize x y → SameBehaviour
        (Prog.exec posix ((x.configured pre segmentSize segmentCount).initFiles clearOnInit) fs)
        (Prog.exec posix ((y.configured pre segmentSize segmentCount).initFiles clearOnInit) fs)) := by
    cases clearOnInit with
    | true => exact behaves_of_clear h (fun hk => hk.configured pre segmentCount) hxc rfl
    | false =>
      rcases hr with hr | hr | hr
      · cases hr
      · by_cases hc : Committed (pre.take (maxFilenameLen - 1)) fs
        · exact behaves_of_committed h hxc hn hc
        · exact behaves_of_missing h hxc hn hc hr
      · exact behaves_of_committed h hxc hn hr
  by_cases hr : ResetsIndex (pre.take (maxFilenameLen - 1)) clearOnInit fs
  · exact ⟨fun _ => (resets hr).2, fun _ => iff_of_true (resets hr).1 (.inl hr)⟩
  · cases clearOnInit with
    | true => exact absurd (.inl rfl) hr
    | false =>
      refine ⟨fun hl => (behaves_of_leftovers h hxc hn hr (hl.resolve_left hr)).2, fun hmax => ?_⟩
      exact (sameState_iff_leftovers h hxc hn hmax hr).trans ⟨.inr, fun hl => hl.resolve_left hr⟩

/-- An object that has stored a key under the prefix `a` and has been closed, with the files. -/
def usedObject : Store × FileSystem :=
  Prog.exec posix sampleEnd.1.2.close sampleEnd.2

/-- Without an index file under the prefix `b`, the used object is opened there as a new one is. -/
theorem init_agrees_iff_sample :
    SameBehaviour (Prog.exec posix (usedObject.1.init ['b'] false 0 4) usedObject.2)
      (Prog.exec posix ((Store.new 65536 8 .recent).init ['b'] false 0 4) usedObject.2) := by
  refine (init_agrees_iff (x := usedObject.1) (y := Store.new 65536 8 .recent)
    ⟨by decide +kernel, by decide +kernel, by decide +kernel⟩ ⟨rfl, rfl, rfl⟩
    ⟨by decide +kernel, by decide +kernel, ?_⟩ ['b'] false 0 4 (.inl (by decide))
    (namesOk_of_length_le (by decide)) usedObject.2).1 (.inl (.inr (.inl (by decide +kernel))))
    ⟨by decide +kernel, by decide +kernel, by decide +kernel, by decide +kernel⟩
  rfl

/-- The files once the prefix `b` has been opened and closed by another object. -/
def bothPrefixes : FileSystem :=
  (Prog.exec posix (Config.start ⟨['b'], 65536, 4⟩ .recent >>= Store.close) usedObject.2).2

/-- An object that has put four keys under the prefix `a`, one of them twice, and has been closed, so that
it has counted a dead record. -/
def countedObject : Store × FileSystem :=
  Prog.exec posix (do
    let st ← Config.start ⟨['a'], 65536, 4⟩ .recent
    let (_, st) ← st.actAll ([97, 98, 99, 100, 97].map fun k =>
      .put ⟨0, 0, 0⟩ (.at [k]) (.at [1]) 0 0 0)
    st.close) .empty

/-- On the files of `b`, which hold no record, the used object still shows its key of `a`.  Where there
are no files of `b` at all, an object that has counted a dead record compacts at its first put, when a
new object does not, and drops the record, which has expired. -/
theorem init_shows_past :
    ¬SameBehaviour (Prog.exec posix (usedObject.1.init ['b'] false 65536 4) bothPrefixes)
      (Prog.exec posix ((Store.new 65536 8 .recent).init ['b'] false 65536 4) bothPrefixes) ∧
    ¬SameBehaviour (Prog.exec posix (countedObject.1.init ['b'] false 65536 4) countedObject.2)
      (Prog.exec posix ((Store.new 65536 8 .recent).init ['b'] false 65536 4) countedObject.2) := by
  refine ⟨fun h => ?_, fun h => ?_⟩
  · have hkey := h.state.index [97]
    revert hkey
    decide +kernel
  · have hanswers := h.answers [.put ⟨10, 0, 0⟩ (.at [97]) (.at [1]) 1 0 0, .size]
    revert hanswers
    decide +kernel

end MicroStore
