import MicroStore.Reopening
import MicroStore.Library.Interruption

/-!
# Power losses during a compaction

What is left of a store when the power goes in the middle of `compact`, at any of its calls, and what
the next `init` makes of it, which can be interrupted in turn.

## What is here

* `wp_recover_settled`, `wp_recover_commit` — recovery where it has nothing to do, and where it finishes
  a committed compaction, with what holds at each of its calls.
* `Durable` — files that hold a map: in segments that the index file leads to, or in the `compact.tmp`
  of a compaction that has been committed.  Sessions start from such files (`Durable.session`), and
  starts that are interrupted leave such files (`Durable.boots`).
* `Config.Dangling` — the one state in which they do not: the journal tells recovery to go on with a
  `compact.tmp` that has been renamed.
* `Interrupted` — what is on disk at any call of a compaction, and `Holds.interrupted` that this is so.
* `Config.Recoverable` — the cuts from which nothing is lost; `Interrupted.durable`.
* `Config.Told` — where the records of a segment that has been removed are, and what the journal says of
  them.
* `compaction_tells`, `compaction_crash_durable` — the two results.

## What is not here

The cuts at which something is lost, and exactly what: without the index file in `Rebuilding.lean`, with
one that is out of date in `Misleading.lean`, behind the rename in `Rebooting.lean`.
-/

set_option autoImplicit false

namespace MicroStore

/-! ## Recovery, call by call

`recover_if_needed` reads the journal.  With a commit it runs the end of the compaction again, on a
store that has not been opened yet. -/

/-- The log of a compaction that recovery has finished. -/
def Log.recovered (count : Nat) (rs : List Record) (es : List IndexEntry) : Log :=
  (Log.empty.cleared count).compacted count rs es

section recovery

variable {E : Env} {st : Store} {fs : FileSystem} {L : Log}

/-- The state of the commit journal. -/
theorem commitJournal_state : commitJournal.state.toNat = JournalState.commit.code := rfl

/-- A journal that fills its file. -/
theorem decode_take_encode (j : Journal) : Journal.decode (j.encode.take Journal.size) = j := by
  rw [List.take_of_length_le (Nat.le_of_eq j.length_encode), Journal.decode_encode]

/-- A commit is not settled. -/
theorem not_settled_commit {pre : Path}
    (hj : fs.file (storePath pre .journal) = some commitJournal.encode) : ¬Settled pre fs := by
  intro h
  rcases h _ hj with h | h | h
  · rw [Journal.length_encode] at h
    exact absurd h (Nat.lt_irrefl _)
  · rw [decode_take_encode] at h
    exact h rfl
  · rw [decode_take_encode] at h
    exact h.1 rfl

/-- Recovery that has nothing to finish leaves the segments and the index file alone. -/
theorem wp_recover_settled (hset : Settled st.basePrefix fs)
    (hmild : ∀ c fs, E.allowed fs c → Scratch st.basePrefix fs c)
    (hinv : ∀ c fs', ¬c.logs → Frame (Names st.basePrefix StoreFile.scratch) fs fs' →
      Settled st.basePrefix fs' → E.inv c fs') {Q : Store → FileSystem → Prop}
    (hQ : ∀ fs', Frame (Names st.basePrefix StoreFile.scratch) fs fs' →
      Settled st.basePrefix fs' → Q st fs') : E.wp st.recoverIfNeeded Q fs := by
  have hat (c : Call) (hc : ¬c.logs) : E.inv c fs := hinv c fs hc (Frame.refl _ _) hset
  have hE := Env.reads_of hat hmild
  have hunlink (a : StoreFile) (ha : a.scratch) (hv : a.Valid) (fs : FileSystem) :
      Frame (Names st.basePrefix StoreFile.scratch) fs (fs.unlink (storePath st.basePrefix a)) :=
    Frame.unlink (mem_names hv ha)
  rw [Store.recoverIfNeeded]
  refine wp_openRead hE (fun _ => Env.wp_ret (hQ fs (Frame.refl _ _) hset)) fun i hi _ => ?_
  refine wp_read hE rfl fun f' _ _ => wp_close hE ?_
  have hfile : fs.file st.journalName = some (fs.data i) := FileSystem.file_eq_some hi
  have hrest : Handle.rest ⟨i, 0, .read⟩ fs = fs.data i := rfl
  have hjournal := hset _ hfile
  rw [hrest]
  dsimp only
  split
  · refine Env.wp_call (hat _ id) (hmild _ _) fun _ => Env.wp_ret ?_
    exact hQ _ (hunlink .journal trivial trivial fs) (.of_none FileSystem.dir_unlink_self)
  next hvalid =>
  have hnot : ¬((fs.data i).length < Journal.size ∨
      (Journal.decode ((fs.data i).take Journal.size)).magic ≠ journalMagic) := by
    rintro (h | h)
    · rw [List.take_of_length_le (Nat.le_of_lt h)] at hvalid
      exact hvalid (.inl (Nat.ne_of_lt h))
    · exact hvalid (.inr h)
  rw [← or_assoc] at hjournal
  obtain ⟨hstate, hnext⟩ := hjournal.resolve_left hnot
  rw [if_neg hstate]
  split
  · next hzero =>
    refine Env.wp_call (hat _ id) (hmild _ _) fun _ => ?_
    have hset1 : Settled st.basePrefix (fs.unlink st.tmpName) := by
      intro bs hbs
      rw [FileSystem.file, FileSystem.dir_unlink] at hbs
      split at hbs
      · cases hbs
      · obtain rfl : fs.data i = bs := Option.some.inj (hfile.symm.trans hbs)
        exact .inr (.inr ⟨hstate, .inl hzero⟩)
    refine Env.wp_call (hinv _ _ id (hunlink .tmp trivial trivial fs) hset1) (hmild _ _)
      fun _ => Env.wp_ret ?_
    exact hQ _ ((hunlink .tmp trivial trivial fs).trans (hunlink .journal trivial trivial _))
      (.of_none FileSystem.dir_unlink_self)
  · next hzero =>
    exact wp_rename_missing (hnext.resolve_left hzero) ⟨hat _ id, hmild _ _⟩
      (Env.wp_ret (hQ fs (Frame.refl _ _) hset))

/-- Recovery that has a committed compaction to finish. -/
theorem wp_recover_commit (hn : NamesOk st.basePrefix) (hlt : st.count < 256) (htwo : 2 ≤ st.count)
    (hmild : ∀ c fs, E.allowed fs c → Scratch st.basePrefix fs c) {rs : List Record}
    (hj : fs.file st.journalName = some commitJournal.encode)
    (htmp : fs.file st.tmpName = some (recordsBytes rs)) (hput : ∀ r ∈ rs, ¬r.deletes)
    (hsmall : ∀ fs', fs'.file (st.segmentName 0) = some (recordsBytes rs) → E.rely fs' →
      (recordsBytes rs).length < 2 ^ 24)
    (hinvA : ∀ c fs', ¬c.logs → Frame (Names st.basePrefix (StoreFile.below st.count)) fs fs' →
      E.inv c fs')
    (hinvB : ∀ c fs', Moved st rs fs fs' → E.inv c fs') {Q : Store → FileSystem → Prop}
    (hQ : ∀ idx i es fs', Disk st.basePrefix st.count fs' (Log.recovered st.count rs es) →
      idx.Shows (scanned rs) → fs'.dir st.journalName = none →
      Q { st with index := idx, indexFile := some ⟨i, 0, .append⟩, currentSegment := 0 } fs') :
    E.wp st.recoverIfNeeded Q fs := by
  have hE := Env.reads_of (fun c hc => hinvA c fs hc (Frame.refl _ _)) hmild
  obtain ⟨i, hi, hdata⟩ := Option.map_eq_some_iff.1 hj
  have hrest : Handle.rest ⟨i, 0, .read⟩ fs = commitJournal.encode := hdata
  rw [Store.recoverIfNeeded]
  refine wp_openRead hE (fun h => ?_) fun i' hi' _ => ?_
  · cases hi.symm.trans h
  obtain rfl : i = i' := Option.some.inj (hi.symm.trans hi')
  refine wp_read hE rfl fun f' _ _ => wp_close hE ?_
  rw [hrest, decode_take_encode]
  dsimp only
  rw [if_neg ?_, if_pos commitJournal_state]
  · refine Prog.wp_bind.2 (wp_finalizeCompaction hn hlt hmild htmp hput hsmall hinvA hinvB
      fun idx j es fs1 hm hshows hfile hj1 hes hle hleads hlen => ?_)
    refine Env.wp_call (hinvB _ fs1 hm) (hmild _ _) fun _ => Env.wp_ret ?_
    have hf : Frame (Names st.basePrefix (· = .journal)) fs1 (fs1.unlink st.journalName) :=
      Frame.unlink (mem_names (by exact trivial) rfl)
    refine hQ idx j es _ (hm.disk hn hlt (Log.compacted_ok (Log.cleared_ok ?_) hlen hes hle)
      (fun s hs hs' => ?_) hfile hf FileSystem.dir_unlink_self) hshows FileSystem.dir_unlink_self
    · intro s g hg
      cases hg
    · rw [spanOf_eq htwo] at hs'
      exact absurd hs' (Nat.not_lt.2 hs)
  · rw [List.take_of_length_le (Nat.le_of_eq commitJournal.length_encode)]
    rintro (h | h)
    · exact h commitJournal.length_encode
    · exact h rfl

/-- Opening a segment file makes it if it is missing, and changes nothing else. -/
structure OpensSegment (pre : Path) (r : Nat) (fs fs' : FileSystem) : Prop where
  /-- Nothing else changes. -/
  frame : Frame (Names pre (· = .segment r)) fs fs'
  /-- The segment is as it was, or empty. -/
  file : fs'.file (storePath pre (.segment r))
    = some ((fs.file (storePath pre (.segment r))).getD [])

/-- Opening a segment keeps the disk. -/
theorem Disk.opensSegment {pre : Path} {count r : Nat} {fs' : FileSystem} (hd : Disk pre count fs L)
    (hr : r < spanOf count) (h : OpensSegment pre r fs fs') : Disk pre count fs' (L.opened r) := by
  obtain ⟨i, hi, hdata⟩ := Option.map_eq_some_iff.1 h.file
  exact hd.opened hr h.frame hi hdata

/-- With an index file, whatever it holds, `init` reads behind the recovery, and opens the last segment
there is. -/
theorem wp_initIndex_file (hf : Files st.basePrefix st.count fs L) {i : Nat}
    (hi : fs.dir st.indexName = some i) (hmax : st.policyMaxRecs = 0)
    (hmild : ∀ c fs, E.allowed fs c → Scratch st.basePrefix fs c) (hinv : ∀ c, ¬c.logs → E.inv c fs)
    (hopened : ∀ c fs' r, ¬c.logs → r < spanOf st.count →
      (∀ s, r < s → s < st.count → L.segs s = none) → OpensSegment st.basePrefix r fs fs' → E.inv c fs')
    {Q : Bool × Store → FileSystem → Prop}
    (hQ : ∀ st' fs' r, OpensSegment st.basePrefix r fs fs' → r < spanOf st.count → SameConfig st st' →
      st'.valid = st.valid → st'.writeBuf = st.writeBuf →
      st'.index = load loopFuel (fs.data i) st.index → Q (true, st') fs') :
    E.wp st.initIndex Q fs := by
  have hE := Env.reads_of hinv hmild
  have hix : fs.file st.indexName = some (fs.data i) := FileSystem.file_eq_some hi
  rw [Store.initIndex, Store.loadIndex]
  refine Prog.wp_bind.2 (wp_openRead hE (fun h => ?_) fun j hj _ => ?_)
  · cases hi.symm.trans h
  obtain rfl : i = j := Option.some.inj (hi.symm.trans hj)
  refine Prog.wp_bind.2 (wp_loadLoop hE _ rfl (wp_close hE (Env.wp_ret ?_)))
  dsimp only
  rw [if_pos rfl]
  refine Env.wp_pure_bind ?_
  rw [Store.initTail, pruneIndexToMaxRecs_eq (.inl (by exact hmax))]
  dsimp only
  rw [if_neg (Nat.lt_irrefl 0)]
  refine Prog.wp_bind.2 (wp_openIndexForAppend (by exact hix) ⟨hinv _ id, hmild _ _⟩ fun j hj => ?_)
  refine Prog.wp_bind.2 (wp_resumeLoop hE (by exact hf) (Nat.zero_add _)
    (Nat.lt_of_lt_of_le Nat.zero_lt_two (two_le_spanOf _))
    (fun s _ hs => absurd hs (Nat.not_lt_zero s)) fun r hr hlast => ?_)
  have hr256 : r < 256 := Nat.lt_trans hr (spanOf_lt hf.lt)
  rw [Store.openSegment]
  refine Prog.wp_bind.2 (wp_closeFile hE ?_)
  refine wp_openKeep (a := .segment r) hr256 rfl rfl ⟨hinv _ id, hmild _ _⟩
    fun fs1 j hf1 hj hdata _ => ?_
  have ho : OpensSegment st.basePrefix r fs fs1 := ⟨hf1, by rw [FileSystem.file_eq_some hj, hdata]⟩
  have hat (c : Call) (hc : ¬c.logs) : E.inv c fs1 := hopened c fs1 r hc hr hlast ho
  refine Env.wp_call (hat _ id) (hmild _ _) fun _ => Env.wp_call (hat _ id) (hmild _ _) fun _ => ?_
  exact hQ _ fs1 r ho hr ⟨rfl, rfl, rfl, rfl⟩ rfl rfl rfl

end recovery

/-! ## Files that hold a map

The map of a session does not say where its records are.  Two places are possible, and a start finds
either. -/

/-- The journal tells recovery to go on with a `compact.tmp` that is gone. -/
def Config.Dangling (cfg : Config) (fs : FileSystem) : Prop :=
  fs.file (storePath cfg.pre .journal) = some commitJournal.encode ∧
    fs.dir (storePath cfg.pre .tmp) = none

/-- The files hold the map: in segments that the index file leads to, or in the `compact.tmp` of a
compaction that has been committed. -/
inductive Durable (cfg : Config) (m : Contents) (fs : FileSystem) : Prop
  | settled (L : Log) (cur : Nat) (disk : Disk cfg.pre cfg.segmentCount.toNat fs L)
      (tidy : L.Tidy cfg.segmentCount.toNat cur) (indexTail : L.indexTail = [])
      (view : ∀ k, L.view k = m.lookup k)
  | committed (rs : List Record)
      (journal : fs.file (storePath cfg.pre .journal) = some commitJournal.encode)
      (tmp : fs.file (storePath cfg.pre .tmp) = some (recordsBytes rs))
      (records : ∀ r ∈ rs, ¬r.deletes ∧ r.key ≠ [] ∧ r.hdr.ttl = 0)
      (view : ∀ k, (scanned rs k).map (fun t => t.record.value) = m.lookup k)

/-- The power may go at any call: no segment file outgrows its offsets, and the files hold the map or
have just lost their `compact.tmp`. -/
def Config.guard (cfg : Config) (m : Contents) : Env :=
  ⟨fun _ _ => False, cfg.Small, fun _ fs => Durable cfg m fs ∨ cfg.Dangling fs⟩

section durable

variable {cfg : Config} {m : Contents} {st : Store} {fs fs' : FileSystem} {L : Log}

/-- Replaying an index file over the index it was written from changes nothing. -/
theorem Index.Shows.reload {idx : Index} {m : Live} {es : List IndexEntry} (h : idx.Shows m)
    (hes : Index.Shows (es.foldl (fun idx e => e.apply idx) ∅) m) :
    Index.Shows (es.foldl (fun idx e => e.apply idx) idx) m := by
  intro k
  rw [← hes k]
  refine foldl_apply_lookup_eq_iff.2 fun hk => ?_
  rw [h k, ← hes k, foldl_apply_lookup_of_ne hk]

/-- The log that recovery leaves is tidy. -/
theorem Log.recovered_tidy {count : Nat} {rs : List Record} {es : List IndexEntry} (htwo : 2 ≤ count)
    (hrs : ∀ r ∈ rs, ¬r.deletes ∧ r.key ≠ [] ∧ r.hdr.ttl = 0) :
    (Log.recovered count rs es).Tidy count 0 := by
  refine Log.compacted_tidy htwo (fun s g hg => ?_) (fun r hr => (hrs r hr).2.1)
    fun r hr => (hrs r hr).2.2
  rw [Log.cleared] at hg
  dsimp only at hg
  split at hg
  · assumption
  · cases hg

/-- The same disk under other names for its parameters. -/
theorem Disk.reshape {pre pre' : Path} {count count' : Nat} (hd : Disk pre count fs L)
    (hpre : pre' = pre) (hcount : count' = count) : Disk pre' count' fs L := by
  rw [hpre, hcount]
  exact hd

/-- **One interrupted start** leaves the map on disk, unless it has just lost its `compact.tmp`. -/
theorem Durable.wp_guard (h : Durable cfg m fs) (hcfg : cfg.Ok) (order : IterationOrder) :
    (cfg.guard m).wp (cfg.start order) (fun _ _ => True) fs := by
  obtain ⟨hpre, hsc⟩ := @Config.configured cfg (Store.new 65536 8 order) hcfg
  have hmild (pre : Path) (c : Call) (fs : FileSystem) (ha : (cfg.guard m).allowed fs c) :
      Scratch pre fs c := ha.elim
  have hmkdir (p : Path) : (cfg.guard m).Ok (.mkdir p) fs := ⟨.inl h, id⟩
  rw [Config.start]
  refine Env.wp_seq (Q := fun _ _ => True) (wp_init_configured hmkdir ?_)
    fun x fs' _ => Env.wp_ret trivial
  generalize hst : (Store.new 65536 8 order).configured cfg.pre cfg.segmentSize cfg.segmentCount = st
    at hpre hsc ⊢
  have hmax : st.policyMaxRecs = 0 := by rw [← hst]; rfl
  have hcount : st.count = cfg.segmentCount.toNat := by rw [Store.count, hsc]
  have htwo : 2 ≤ st.count := Config.two_le_count hcfg hsc
  have hsmall (fs : FileSystem) (hs : (cfg.guard m).rely fs) : ∀ s < spanOf st.count, ∀ bs,
      fs.file (st.segmentName s) = some bs → bs.length < 2 ^ 24 := by
    intro s hlt bs hbs
    rw [spanOf_eq htwo, hcount] at hlt
    rw [Store.segmentName, hpre] at hbs
    exact hs s hlt bs hbs
  rw [Store.initFiles, if_neg Bool.false_ne_true]
  refine Env.wp_pure_bind ?_
  have hset (fs' : FileSystem) (L' : Log) (cur' : Nat) (hd' : Disk st.basePrefix st.count fs' L')
      (ht' : L'.Tidy cfg.segmentCount.toNat cur') (htail' : L'.indexTail = [])
      (hview' : ∀ k, L'.view k = m.lookup k) : Durable cfg m fs' :=
    .settled L' cur' (hd'.reshape hpre.symm hcount.symm) ht' htail' hview'
  cases h with
  | settled L cur hd ht htail hview =>
    have hd₀ : Disk st.basePrefix st.count fs L := hd.reshape hpre hcount
    refine Prog.wp_bind.2 (wp_recover_settled hd₀.journal (hmild _)
      (fun c fs' _ hf hj => .inl (hset fs' L cur (hd₀.frame hf hj) ht htail hview))
      fun fs1 hf1 hj1 => ?_)
    have hd₁ := hd₀.frame hf1 hj1
    obtain ⟨i, hi, -⟩ := hd₁.dir_index
    refine wp_initIndex_file (Q := fun _ _ => True) hd₁.files hi hmax (hmild _)
      (fun c _ => .inl (hset fs1 L cur hd₁ ht htail hview)) (fun c fs' r _ hr hlast ho => .inl ?_)
      fun _ _ _ _ _ _ _ _ _ => trivial
    refine hset fs' (L.opened r) r (hd₁.opensSegment hr ho) (Log.opened_tidy ht fun s hs => ?_) htail
      hview
    cases hg : L.segs s with
    | none => rfl
    | some g =>
      have hlt := hd₁.ok.segs_lt s g hg
      rw [spanOf_eq htwo] at hlt
      exact hg.symm.trans (hlast s hs hlt)
  | committed rs hj htmp hrs hview =>
    have hn : NamesOk st.basePrefix := hpre ▸ namesOk_of_length_le hcfg.pre
    have hlt : st.count < 256 := st.segmentCount.toNat_lt
    rw [← hpre] at hj htmp
    have hbound (fs' : FileSystem) (hfile : fs'.file (st.segmentName 0) = some (recordsBytes rs))
        (hs : (cfg.guard m).rely fs') : (recordsBytes rs).length < 2 ^ 24 :=
      hsmall fs' hs 0 (Nat.lt_of_lt_of_le Nat.zero_lt_two (two_le_spanOf _)) _ hfile
    refine Prog.wp_bind.2 (wp_recover_commit hn hlt htwo (hmild _) hj htmp
      (fun r hr => (hrs r hr).1) hbound (fun c fs' _ hf => .inl ?_) (fun c fs' hm => .inr ?_)
      fun idx i es fs1 hd hshows hnone => ?_)
    · refine .committed rs ?_ ?_ hrs hview
      · rw [← hpre]
        exact (hf.file (hn.not_mem .journal trivial id)).trans hj
      · rw [← hpre]
        exact (hf.file (hn.not_mem .tmp trivial id)).trans htmp
    · rw [Config.Dangling, ← hpre]
      exact ⟨(hm.frame.file (hn.not_mem .journal trivial (by simp))).trans hj, hm.tmp⟩
    · have ht : (Log.recovered st.count rs es).Tidy cfg.segmentCount.toNat 0 := by
        rw [← hcount]
        exact Log.recovered_tidy htwo hrs
      obtain ⟨j, hj1, -⟩ := hd.dir_index
      refine wp_initIndex_file (E := cfg.guard m) (Q := fun _ _ => True) (by exact hd.files)
        (by exact hj1) (by exact hmax) (by exact hmild _)
        (fun c _ => .inl (hset fs1 _ 0 hd ht rfl hview)) (fun c fs' r _ hr _ ho => .inl ?_)
        fun _ _ _ _ _ _ _ _ _ => trivial
      refine hset fs' _ r (hd.opensSegment hr ho) (Log.opened_tidy ht fun s hs => ?_) rfl hview
      exact ht.above s (Nat.zero_lt_of_lt hs)

/-- **A start that completes** finds the map. -/
theorem Durable.wp_start (h : Durable cfg m fs) (hcfg : cfg.Ok) (order : IterationOrder) :
    cfg.env.wp (cfg.start order) (fun st fs' => ∃ L, Holds cfg m st fs' L) fs := by
  refine MicroStore.wp_start hcfg order fun st hpre hsc hvalid hcool httl hmax hbuf hindex => ?_
  have hE : cfg.env.Fits st.basePrefix st.count := Config.fits_store hcfg hpre hsc
  have hcount : st.count = cfg.segmentCount.toNat := by rw [Store.count, hsc]
  have htwo : 2 ≤ st.count := Config.two_le_count hcfg hsc
  cases h with
  | settled L cur hd ht htail hview =>
    refine wp_initFiles hE (hd.reshape hpre hcount) (by rw [htail]; exact readEntry_nil) hvalid
      (.inr hcool) hbuf hindex (fun _ _ _ _ => trivial) fun st' fs' L' hop => ?_
    rw [ht.reloaded] at hop
    have ht' : L.Tidy st.count cur := by
      rw [hcount]
      exact ht
    exact ⟨_, hop.holds httl hmax (by exact ht') htail hview hpre hsc⟩
  | committed rs hj htmp hrs hview =>
    have hn : NamesOk st.basePrefix := hpre ▸ namesOk_of_length_le hcfg.pre
    rw [← hpre] at hj htmp
    rw [Store.initFiles, if_neg Bool.false_ne_true]
    refine Env.wp_pure_bind ?_
    refine Prog.wp_bind.2 (wp_recover_commit hn st.segmentCount.toNat_lt htwo hE.mild hj htmp
      (fun r hr => (hrs r hr).1) (fun fs' hfile hs => hE.small fs' hs 0
        (Nat.lt_of_lt_of_le Nat.zero_lt_two (two_le_spanOf _)) _ hfile)
      (fun _ _ _ _ => trivial) (fun _ _ _ => trivial) fun idx i es fs1 hd hshows _ => ?_)
    have hes : Index.Shows (es.foldl (fun idx e => e.apply idx) ∅) (scanned rs) := hd.ok.entries
    have hload := hshows.reload hes
    have hle : (es.foldl (fun idx e => e.apply idx) idx).entries.length ≤ es.length := by
      refine Nat.le_trans (@Index.Within.length_le _ (es.foldl (fun idx e => e.apply idx) ∅) ?_) ?_
      · intro k v hk
        rw [hload k] at hk
        exact (hes k).trans hk
      · have := length_foldl_apply_le es ∅
        rwa [AList.empty_entries, List.length_nil, Nat.zero_add] at this
    rw [Store.initIndex]
    refine Prog.wp_bind.2 (wp_loadIndex (L := Log.recovered st.count rs es) hE.reads (by exact hd)
      (fun h => hd.files.length_lt (hE.small fs1 h)) readEntry_nil ?_)
    dsimp only
    rw [if_pos rfl]
    refine Env.wp_pure_bind (wp_initTail (L := Log.recovered st.count rs es) (by exact hE)
      (by exact hd) (by exact hvalid) (by exact .inr hcool) (by exact hbuf) hload hle
      (fun _ _ _ _ => trivial) fun st' fs' L' hop => ?_)
    exact ⟨_, hop.holds httl hmax (Log.recovered_tidy htwo hrs) rfl hview hpre hsc⟩

/-- What follows a start on files that hold the map answers as the map does. -/
theorem Durable.session (h : Durable cfg m fs) (hcfg : cfg.Ok) (order : IterationOrder)
    {commands : List Command} (hc : ∀ c ∈ commands, c.WithinLimits)
    (hsmall : ∀ x ∈ Prog.trace posix (cfg.session order commands) fs, cfg.Small x.2) :
    AnsweredAll m commands (Prog.exec posix (cfg.session order commands) fs).1.1 := by
  refine @Env.exec_of_wp cfg.env _ _ (fun x _ => AnsweredAll m commands x.1) fs ?_ hsmall
  rw [Config.session]
  refine Env.wp_seq (h.wp_start hcfg order) fun st fs' hst => ?_
  obtain ⟨L, hL⟩ := hst
  exact Prog.wp_mono (hL.wp_performAll hcfg hc) fun _ _ hx => hx.1

/-- The starts after a power loss: each is interrupted in turn, but none at a moment when its journal
tells recovery to go on with a `compact.tmp` that is gone. -/
def Config.Boots (cfg : Config) : FileSystem → FileSystem → Prop :=
  Prog.Attempts posix cfg.Small (fun fs => ¬cfg.Dangling fs) cfg.start

/-- **Interrupted starts** leave the map on disk. -/
theorem Durable.boots (h : Durable cfg m fs) (hcfg : cfg.Ok) (hb : cfg.Boots fs fs') :
    Durable cfg m fs' := by
  refine Prog.Attempts.preserve hb (fun order fs₁ fs₂ h₁ hcut hnot => ?_) h
  obtain ⟨_, hinv⟩ := Prog.wp_cut (h₁.wp_guard hcfg order) hcut fun _ _ hs => ⟨hs, .inl rfl⟩
  exact hinv.resolve_right hnot

end durable

/-! ## Where a compaction can be interrupted

A cut is a state before one of the calls, so it is what the invariant of the circumstances says
there. -/

/-- What is on disk when the power goes at a call of a compaction. -/
def Interrupted (st : Store) (L : Log) (now : UInt32) (fs fs' : FileSystem) : Prop :=
  (∃ n r, Checkpoint st L now fs n r fs' ∧
    (fs'.file st.journalName = some (st.journalAt L now n).encode ∨
      fs'.file st.journalName = some [] ∨
      n = 0 ∧ Settled st.basePrefix fs') ∧
    (0 < n → Underway st L now n fs')) ∨
  AfterCommit .plain st (st.image L now st.count) fs'

/-- Recovery finds what it needs: a committed compaction with its `compact.tmp`, or nothing to finish
and every segment as it was. -/
def Config.Recoverable (cfg : Config) (fs fs' : FileSystem) : Prop :=
  Committed cfg.pre fs' ∨ Settled cfg.pre fs' ∧ ∀ s < cfg.segmentCount.toNat,
    fs'.file (storePath cfg.pre (.segment s)) = fs.file (storePath cfg.pre (.segment s))

section interrupted

variable {cfg : Config} {m : Contents} {st : Store} {fs fs' : FileSystem} {L : Log} {now : UInt32}

/-- **Every call of a compaction** finds the files in one of these states. -/
theorem Holds.interrupted (h : Holds cfg m st fs L) (hcfg : cfg.Ok)
    (hcut : Prog.Cut posix cfg.Small (st.compact now) fs fs') : Interrupted st L now fs fs' := by
  let E : Env := ⟨fun _ _ => False, cfg.Small, fun _ fs' => Interrupted st L now fs fs'⟩
  have hno : E.Faultless := fun _ _ => id
  have hmild (c : Call) (fs : FileSystem) (ha : E.allowed fs c) : Scratch st.basePrefix fs c := ha.elim
  have hprune : st.pruneIndexToMaxRecs = (0, st) := pruneIndexToMaxRecs_eq (.inl h.maxRecs)
  have hwp : E.wp (st.compact now) (fun _ _ => True) fs := by
    refine wp_compact (L := L) hprune rfl h.ready.rep.disk h.ready.rep.shows hmild
      (fun c fs' _ hmid => ?_) (fun c fs' hafter => ?_) (fun fs' hfile hs => ?_)
      (fun _ _ _ _ _ _ _ _ => trivial) fun _ _ _ _ _ _ => trivial
    · obtain ⟨n, r, hcp, hj⟩ := hmid
      refine .inl ⟨n, r, hcp, ?_, (hj hno).2⟩
      exact (hj hno).1.imp_right fun h => h.imp_left And.left
    · exact .inr ⟨fun _ => hafter.1 hno, hafter.2⟩
    · refine hs 0 (Nat.lt_of_lt_of_le Nat.zero_lt_two (Config.two_le hcfg)) _ ?_
      rw [← h.pre]
      exact hfile
  obtain ⟨_, hinv⟩ := Prog.wp_cut hwp hcut fun _ _ hs => ⟨hs, .inl rfl⟩
  exact hinv

/-- Without a TTL, everything that is live survives a compaction. -/
theorem Holds.survivors_eq (h : Holds cfg m st fs L) (k : Key) :
    st.survivors L now st.count k = L.live k := by
  cases ht : L.live k with
  | none =>
    cases hs : st.survivors L now st.count k with
    | none => rfl
    | some t => cases ht.symm.trans (survivors_eq_some.1 hs).1
  | some t =>
    have hd := h.ready.rep.disk
    refine survivors_eq_some.2 ⟨ht, expires_eq_false h.ttl (h.tidy.record ht).2 now, ?_⟩
    obtain ⟨g, hg, -⟩ := hd.ok.has k t (hd.ok.sub k t ht)
    have hlt := hd.ok.segs_lt _ g hg
    rwa [spanOf_eq h.tidy.two_le] at hlt

/-- What a compaction copies is put, has a key and no TTL. -/
theorem Holds.image_records (h : Holds cfg m st fs L) {n : Nat} {r : Record}
    (hr : r ∈ st.image L now n) : ¬r.deletes ∧ r.key ≠ [] ∧ r.hdr.ttl = 0 := by
  obtain ⟨t, ht, rfl, hdel, -⟩ := image_put h.ready.rep.disk h.ready.rep.shows hr
  exact ⟨hdel, h.tidy.record ht⟩

/-- A complete copy holds the map. -/
theorem Holds.scanned_image (h : Holds cfg m st fs L) (k : Key) :
    (scanned (st.image L now st.count) k).map (fun t => t.record.value) = m.lookup k := by
  have hnil : st.survivors L now st.count [] = none := by
    rw [h.survivors_eq]
    cases ht : L.live [] with
    | none => rfl
    | some t =>
      have hd := h.ready.rep.disk
      exact absurd (hd.ok.key [] t (hd.ok.sub [] t ht)) (h.tidy.record ht).1
  have hscan := scanned_image_eq h.ready.rep.disk h.ready.rep.shows hnil k
  rw [h.survivors_eq] at hscan
  rw [← h.view k, Log.view]
  have hmap := congrArg (Option.map Record.value) hscan
  rwa [Option.map_map, Option.map_map] at hmap

/-- The journal of a checkpoint is not that of a commit, and leaves recovery nothing to do only if
nothing has been journaled yet. -/
theorem journalAt_state {n : Nat} : (st.journalAt L now n).state.toNat ≠ JournalState.commit.code := by
  change (UInt32.ofNat JournalState.compacting.code).toNat ≠ _
  decide

/-- The number of segments. -/
theorem Holds.count_eq (h : Holds cfg m st fs L) : st.count = cfg.segmentCount.toNat := by
  rw [Store.count, h.segmentCount]

/-- **A recoverable moment** of a compaction leaves the map on disk. -/
theorem Interrupted.durable (hi : Interrupted st L now fs fs') (h : Holds cfg m st fs L)
    (hrec : cfg.Recoverable fs fs') : Durable cfg m fs' := by
  have hd := h.ready.rep.disk
  rw [Config.Recoverable, ← h.pre, ← h.count_eq] at hrec
  rcases hi with ⟨n, r, hcp, hj, -⟩ | ⟨hj, hfiles⟩
  · rcases hrec with ⟨bs, hbs, hlen, hmagic, hstate, -⟩ | ⟨hset, hsegs⟩
    · -- before the commit the journal does not say that there was one
      exfalso
      rcases hj with hj | hj | ⟨-, hj⟩
      · obtain rfl := Option.some.inj (hj.symm.trans hbs)
        rw [decode_take_encode] at hstate
        exact journalAt_state hstate
      · obtain rfl := Option.some.inj (hj.symm.trans hbs)
        exact absurd hlen (by decide)
      · rcases hj bs hbs with h | h | h
        · exact absurd hlen (Nat.not_le.2 h)
        · exact h hmagic
        · exact h.1 hstate
    · have hindex : fs'.file st.indexName = fs.file st.indexName :=
        hcp.frame.file (hd.names.not_mem .index trivial (by rintro (h | ⟨s, -, h⟩) <;> cases h))
      have hd' : Disk st.basePrefix st.count fs' L :=
        { hd with
          segs := fun s hs => by
            rw [spanOf_eq h.tidy.two_le] at hs
            rw [hsegs s hs]
            exact hd.segs s (Nat.lt_of_lt_of_le hs (le_spanOf _))
          index := hindex.trans hd.index
          journal := hset }
      refine .settled L st.currentSegment (hd'.reshape h.pre.symm h.count_eq.symm) ?_
        h.ready.indexTail h.view
      rw [← h.count_eq]
      exact h.tidy
  · have hj : fs'.file st.journalName = some commitJournal.encode := hj fun _ _ => id
    rcases hrec with ⟨-, -, -, -, -, htmp⟩ | ⟨hset, -⟩
    · rcases hfiles with hfile | ⟨hnone, -⟩
      · refine .committed (st.image L now st.count) ?_ ?_ (fun r hr => h.image_records hr)
          h.scanned_image
        · rw [← h.pre]
          exact hj
        · rw [← h.pre]
          exact hfile
      · exact absurd hnone htmp
    · exact absurd hset (not_settled_commit hj)

/-- A live record of a segment that has been copied is among the copies. -/
theorem Holds.mem_image_of_live (h : Holds cfg m st fs L) {n : Nat} {k : Key} {t : Located}
    (ht : L.live k = some t) (hn : t.seg < n) : t.record ∈ st.image L now n :=
  (mem_image h.ready.rep.disk h.ready.rep.shows).2
    ⟨k, t, survivors_eq_some.2 ⟨ht, expires_eq_false h.ttl (h.tidy.record ht).2 now, hn⟩, rfl⟩

/-- What a file says of a live key: the whole record. -/
theorem Holds.record_mem (h : Holds cfg m st fs L) {n : Nat} {k : Key} {e : IndexValue}
    (he : st.indexFind k = some e) (hn : e.segment.toNat < n) :
    ∃ r ∈ st.image L now n, r.key = k ∧ ¬r.deletes ∧ m.lookup k = some r.value := by
  have hd := h.ready.rep.disk
  have hfind : st.indexFind k = (L.live k).map Located.indexValue := h.ready.rep.shows k
  rw [hfind] at he
  obtain ⟨t, ht, rfl⟩ := Option.map_eq_some_iff.1 he
  rw [hd.indexValue_segment ht] at hn
  refine ⟨t.record, h.mem_image_of_live ht hn, hd.ok.key k t (hd.ok.sub k t ht),
    hd.ok.put k t (hd.ok.sub k t ht), ?_⟩
  rw [← h.view k, Log.view, ht]
  rfl

/-- A record stands in the bytes of its segment. -/
theorem record_infix {rs : List Record} {r : Record} (h : r ∈ rs) (tail : Bytes) :
    r.bytes <:+: recordsBytes rs ++ tail := by
  obtain ⟨before, after, rfl⟩ := List.append_of_mem h
  refine ⟨recordsBytes before, recordsBytes after ++ tail, ?_⟩
  rw [recordsBytes_append, recordsBytes_cons, List.append_assoc, List.append_assoc, List.append_assoc]

/-- The bytes hold a whole record, with its value, for every key that the index finds in the segments up
to `s`. -/
def Config.Backs (m : Contents) (st : Store) (s : Nat) (bs : Bytes) : Prop :=
  ∀ k e, st.indexFind k = some e → e.segment.toNat ≤ s →
    ∃ r : Record, r.key = k ∧ ¬r.deletes ∧ m.lookup k = some r.value ∧ r.bytes <:+: bs

/-- Where the records of a segment that has been removed are, and what the journal says. -/
inductive Config.Told (cfg : Config) (m : Contents) (st : Store) (s : Nat) (fs : FileSystem) : Prop
  | copying (bs : Bytes) (htmp : fs.file (storePath cfg.pre .tmp) = some bs)
      (hback : Config.Backs m st s bs) (n : Nat) (hn : s < n) (hle : n ≤ cfg.segmentCount.toNat)
      (v : UInt32)
      (hj : fs.file (storePath cfg.pre .journal)
        = some (Journal.encode ⟨journalMagic, .ofNat JournalState.compacting.code, .ofNat n, v⟩))
  | rewriting (bs : Bytes) (htmp : fs.file (storePath cfg.pre .tmp) = some bs)
      (hback : Config.Backs m st s bs) (hj : fs.file (storePath cfg.pre .journal) = some [])
  | committed (bs : Bytes) (hfile : fs.file (storePath cfg.pre .tmp) = some bs ∨
        fs.file (storePath cfg.pre (.segment 0)) = some bs)
      (hback : Config.Backs m st s bs)
      (hj : fs.file (storePath cfg.pre .journal) = some commitJournal.encode)

/-- Where a segment is gone, its records are told of. -/
theorem Interrupted.told (hi : Interrupted st L now fs fs') (h : Holds cfg m st fs L) {s : Nat}
    (hs : s < st.count) (hthere : fs.dir (st.segmentName s) ≠ none)
    (hgone : fs'.dir (st.segmentName s) = none) : cfg.Told m st s fs' := by
  have hd := h.ready.rep.disk
  have hback {n : Nat} (hn : s < n) (tail : Bytes) :
      Config.Backs m st s (recordsBytes (st.image L now n) ++ tail) := by
    intro k e he hle
    obtain ⟨r, hr, hk, hdel, hv⟩ := h.record_mem he (Nat.lt_of_le_of_lt hle hn)
    exact ⟨r, hk, hdel, hv, record_infix hr tail⟩
  rcases hi with ⟨n, r, hcp, hj, hund⟩ | ⟨hj, hfiles⟩
  · have hr : s < r := by
      by_contra hr
      have hfile := hcp.segment hd hs (Nat.not_lt.1 hr)
      rw [FileSystem.file_eq_none.2 hgone,
        ← hd.segs s (Nat.lt_of_lt_of_le hs (le_spanOf _))] at hfile
      exact hthere (FileSystem.file_eq_none.1 hfile.symm)
    have hn : s < n := Nat.lt_of_lt_of_le hr hcp.le.1
    obtain ⟨i, x, hi, hdata, -⟩ := hund (Nat.zero_lt_of_lt hn)
    have htmp : fs'.file (storePath cfg.pre .tmp) = some (recordsBytes (st.image L now n) ++ x) := by
      rw [← h.pre, FileSystem.file_eq_some hi, hdata]
    rw [Store.journalName, h.pre] at hj
    rcases hj with hj | hj | ⟨rfl, -⟩
    · exact .copying _ htmp (hback hn x) n hn (h.count_eq ▸ hcp.le.2) _ hj
    · exact .rewriting _ htmp (hback hn x) hj
    · exact absurd hn (Nat.not_lt_zero s)
  · have hj : fs'.file st.journalName = some commitJournal.encode := hj fun _ _ => id
    rw [Store.journalName, h.pre] at hj
    rw [Store.tmpName, Store.segmentName, h.pre] at hfiles
    refine .committed (recordsBytes (st.image L now st.count)) (hfiles.imp_right fun hm => hm.2.1) ?_ hj
    have hback := hback hs []
    rwa [List.append_nil] at hback

end interrupted

/-- **A removed segment is never unaccounted for.**  At every call of a compaction and for every segment
whose file it has removed, the records that are live in the segments up to this one stand in full in
`compact.tmp`, or in the new segment 0, and the journal says so: it is past the segment or committed, or it
is the empty file that it is while it is being rewritten. -/
theorem compaction_tells {cfg : Config} (hcfg : cfg.Ok) (order : IterationOrder)
    (commands : List Command) (hc : ∀ c ∈ commands, c.WithinLimits) (fs : FileSystem)
    (hfresh : cfg.Fresh fs)
    (hsmall : ∀ x ∈ Prog.trace posix (cfg.session order commands) fs, cfg.Small x.2) (as : List Answer)
    (st : Store) (fs₁ : FileSystem)
    (hend : Prog.exec posix (cfg.session order commands) fs = ((as, st), fs₁)) (now : UInt32)
    (fs₂ : FileSystem) (hcut : Prog.Cut posix cfg.Small (st.compact now) fs₁ fs₂) (s : Nat)
    (hs : s < cfg.segmentCount.toNat) (hthere : fs₁.dir (storePath cfg.pre (.segment s)) ≠ none)
    (hgone : fs₂.dir (storePath cfg.pre (.segment s)) = none) :
    cfg.Told (Contents.after ∅ commands) st s fs₂ := by
  obtain ⟨-, L, hL⟩ := session_reaches hcfg order hc hfresh hsmall
  rw [hend] at hL
  rw [← hL.count_eq] at hs
  rw [← hL.pre] at hthere hgone
  exact (hL.interrupted hcfg hcut).told hL hs hthere hgone

theorem sampleTorn_lt : 25 < (Prog.trace posix (sampleEnd.1.2.compact 0) sampleEnd.2).length := by
  decide +kernel

/-- The power goes while the sample's journal is rewritten for the second segment: the first is gone. -/
def sampleTorn : FileSystem :=
  ((Prog.trace posix (sampleEnd.1.2.compact 0) sampleEnd.2).get ⟨25, sampleTorn_lt⟩).2

theorem compaction_tells_sample :
    sampleConfig.Told (Contents.after ∅ sampleCommands) sampleEnd.1.2 0 sampleTorn := by
  refine compaction_tells sampleConfig_ok .recent sampleCommands ?_ .empty (fun _ _ => rfl) ?_
    sampleEnd.1.1 sampleEnd.1.2 sampleEnd.2 rfl 0 sampleTorn ⟨⟨25, sampleTorn_lt⟩, rfl, ?_⟩ 0 ?_ ?_ ?_
  · simp [sampleCommands, Command.WithinLimits, Buf.bytes, maxKeyLen, maxValueLen]
  · decide +kernel
  · decide +kernel
  · decide
  · decide +kernel
  · decide +kernel

/-- **A power loss during a compaction costs nothing** when it comes before the first segment has been
journaled as copied, or after the commit while `compact.tmp` is there: whatever number of starts is
interrupted in turn, none of them just after the rename, whatever is done with the store afterwards is
answered as if nothing had happened. -/
theorem compaction_crash_durable {cfg : Config} (hcfg : cfg.Ok) (order : IterationOrder)
    (commands : List Command) (hc : ∀ c ∈ commands, c.WithinLimits) (fs : FileSystem)
    (hfresh : cfg.Fresh fs)
    (hsmall : ∀ x ∈ Prog.trace posix (cfg.session order commands) fs, cfg.Small x.2) (as : List Answer)
    (st : Store) (fs₁ : FileSystem)
    (hend : Prog.exec posix (cfg.session order commands) fs = ((as, st), fs₁)) (now : UInt32)
    (fs₂ : FileSystem) (hcut : Prog.Cut posix cfg.Small (st.compact now) fs₁ fs₂)
    (hrec : cfg.Recoverable fs₁ fs₂) (fs₃ : FileSystem) (hboots : cfg.Boots fs₂ fs₃)
    (order' : IterationOrder) (commands' : List Command) (hc' : ∀ c ∈ commands', c.WithinLimits)
    (hsmall' : ∀ x ∈ Prog.trace posix (cfg.session order' commands') fs₃, cfg.Small x.2) :
    AnsweredAll (Contents.after ∅ commands) commands'
      (Prog.exec posix (cfg.session order' commands') fs₃).1.1 := by
  obtain ⟨-, L, hL⟩ := session_reaches hcfg order hc hfresh hsmall
  rw [hend] at hL
  have hdur := (hL.interrupted hcfg hcut).durable hL hrec
  exact (hdur.boots hcfg hboots).session hcfg order' hc' hsmall'

theorem sampleCut_lt : 50 < (Prog.trace posix (sampleEnd.1.2.compact 0) sampleEnd.2).length := by
  decide +kernel

/-- The power goes once the sample's compaction has been committed and one segment removed. -/
def sampleCut : FileSystem :=
  ((Prog.trace posix (sampleEnd.1.2.compact 0) sampleEnd.2).get ⟨50, sampleCut_lt⟩).2

theorem sampleBoot_lt :
    7 < (Prog.trace posix (sampleConfig.start .recent) sampleCut).length := by
  decide +kernel

/-- It goes again just before recovery renames `compact.tmp`. -/
def sampleBoot : FileSystem :=
  ((Prog.trace posix (sampleConfig.start .recent) sampleCut).get ⟨7, sampleBoot_lt⟩).2

theorem compaction_crash_durable_sample :
    AnsweredAll (Contents.after ∅ sampleCommands) [.get ⟨0, 0, 0⟩ (.at [97])]
      (Prog.exec posix (sampleConfig.session .recent [.get ⟨0, 0, 0⟩ (.at [97])]) sampleBoot).1.1 := by
  refine compaction_crash_durable sampleConfig_ok .recent sampleCommands ?_ .empty (fun _ _ => rfl) ?_
    sampleEnd.1.1 sampleEnd.1.2 sampleEnd.2 rfl 0 sampleCut ⟨⟨50, sampleCut_lt⟩, rfl, ?_⟩ (.inl ?_)
    sampleBoot (.single ⟨⟨.recent, ⟨7, sampleBoot_lt⟩, rfl, ?_⟩, ?_⟩) .recent _ ?_ ?_
  · simp [sampleCommands, Command.WithinLimits, Buf.bytes, maxKeyLen, maxValueLen]
  · decide +kernel
  · decide +kernel
  · refine ⟨commitJournal.encode, ?_, ?_, rfl, rfl, ?_⟩ <;> decide +kernel
  · decide +kernel
  · rintro ⟨-, h⟩
    revert h
    decide +kernel
  · simp [Command.WithinLimits, Buf.bytes, maxKeyLen]
  · decide +kernel

end MicroStore
