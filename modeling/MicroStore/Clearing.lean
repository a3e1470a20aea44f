import MicroStore.Session

/-!
# Clearing for good

`clear`, and `init` with `clearOnInit`, remove the segments and the index file, but neither the journal
nor `compact.tmp`.  When a compaction that was interrupted has left these, the next recovery turns the
old `compact.tmp` into segment 0 (`clear_brings_back`).  Where recovery finds nothing to finish, a
session behind the clear answers as one that starts from nothing (`clear_erases`).

## What is here

* `Store.Closed`, `Config.Open` — the two states a store may be cleared in: newly made, by `init` with
  `clearOnInit`, and open, by `clear`.
* `Config.clearedSession`, `Config.clearAndPerform` — the two ways of clearing, followed by a session.
* `wp_clearedSession`, `wp_clearAndPerform` — either leads to the invariant of a session with an empty
  map.
* `clear_erases` — the result, from any contents of the disk on which recovery has nothing to finish.
* `aborted`, `clear_brings_back` — a disk on which it has.  A run of the store with a write that fails
  leads there.

What was on the disk before plays no part: the segments may hold anything, and need not be records.
-/

set_option autoImplicit false

namespace MicroStore

/-- Neither a file is open nor a byte buffered. -/
structure Store.Closed (st : Store) : Prop where
  /-- No segment is open. -/
  activeFile : st.activeFile = none
  /-- Nor the index file. -/
  indexFile : st.indexFile = none
  /-- Nothing is held back. -/
  writeBuf : st.writeBuf = []

/-- The files of the store are open, and no byte is buffered. -/
structure Config.Open (cfg : Config) (st : Store) : Prop where
  /-- `init` has succeeded. -/
  valid : st.valid = true
  /-- A segment is open. -/
  activeFile : st.activeFile.isSome
  /-- So is the index file. -/
  indexFile : st.indexFile.isSome
  /-- Nothing is held back. -/
  writeBuf : st.writeBuf = []
  /-- The prefix is that of the session. -/
  pre : st.basePrefix = cfg.pre
  /-- And so is the number of segments. -/
  segmentCount : st.segmentCount = cfg.segmentCount

/-- Neither a TTL nor a limit on the records is set. -/
structure Store.NoPolicies (st : Store) : Prop where
  /-- Nothing expires. -/
  ttl : st.policyTtlSecs = 0
  /-- Nothing is evicted. -/
  maxRecs : st.policyMaxRecs = 0

namespace Config

/-- Open an object with `clearOnInit`, and perform operations. -/
def clearedSession (cfg : Config) (st : Store) (commands : List Command) :
    FsM (List Answer × Store) := do
  let (_, st) ← st.init cfg.pre true cfg.segmentSize cfg.segmentCount
  cfg.performAll st commands

/-- Clear an open store, and perform operations. -/
def clearAndPerform (cfg : Config) (st : Store) (commands : List Command) :
    FsM (List Answer × Store) := do
  let st ← st.clear
  cfg.performAll st commands

end Config

section clearing

variable {cfg : Config} {st : Store} {fs : FileSystem}

/-- `init` with `clearOnInit` opens an empty store, if recovery has nothing to bring back. -/
theorem wp_init_clear (hcfg : cfg.Ok) (hclosed : st.Closed) (hnop : st.NoPolicies)
    (hset : Settled cfg.pre fs ∨ fs.dir (storePath cfg.pre .tmp) = none) :
    cfg.env.wp (st.init cfg.pre true cfg.segmentSize cfg.segmentCount)
      (fun x fs' => ∃ L, Holds cfg ∅ x.2 fs' L) fs := by
  refine wp_init_configured (fun _ => ⟨trivial, id⟩) ?_
  obtain ⟨hpre, hcount⟩ := @Config.configured cfg st hcfg
  have hclosed' : (st.configured cfg.pre cfg.segmentSize cfg.segmentCount).Closed :=
    ⟨hclosed.activeFile, hclosed.indexFile, hclosed.writeBuf⟩
  have hnop' : (st.configured cfg.pre cfg.segmentSize cfg.segmentCount).NoPolicies :=
    ⟨hnop.ttl, hnop.maxRecs⟩
  have hvalid : (st.configured cfg.pre cfg.segmentSize cfg.segmentCount).valid = true := rfl
  generalize st.configured cfg.pre cfg.segmentSize cfg.segmentCount = st at *
  have hE : cfg.env.Fits st.basePrefix st.count := Config.fits_store hcfg hpre hcount
  have hn : NamesOk st.basePrefix := hpre ▸ namesOk_of_length_le hcfg.pre
  have htwo : 2 ≤ st.count := Config.two_le_count hcfg hcount
  have hlt : st.count < 256 := st.segmentCount.toNat_lt
  rw [Store.initFiles, if_pos rfl]
  refine Prog.wp_bind.2 (wp_clear_closed hE hvalid hclosed'.writeBuf hn hlt
    fun fs1 hf1 hseg hnone => ?_)
  rw [hclosed'.indexFile, hclosed'.activeFile]
  refine Env.wp_ret ?_
  have hset1 : Settled st.basePrefix fs1 ∨ fs1.dir st.tmpName = none := by
    refine hset.imp (fun h => ?_) fun h => ?_
    · rw [← hpre] at h
      exact h.frame hn hf1 (by simp [StoreFile.below]) (by simp [StoreFile.below])
    · rw [← hpre] at h
      exact (hf1.dir (hn.not_mem .tmp trivial (by simp [StoreFile.below]))).trans h
  refine Prog.wp_bind.2 (wp_recoverIfNeeded (by exact hE) (by exact hlt) (by exact hset1)
    fun fs2 _ _ habs hset2 => ?_)
  have hf : Files st.basePrefix st.count fs2 .empty :=
    Files.of_gone hn hlt (fun s hs => habs _ (hseg s (spanOf_eq htwo ▸ hs))) hset2
  exact wp_initIndex_missing (by exact hE) (by exact hf) (Log.empty_scannable _)
    (by exact habs _ hnone) (fun _ _ _ _ => trivial) (by exact hvalid)
    (by exact .inl (Nat.zero_lt_of_lt htwo)) (by rfl)
    fun idx es st' fs' L' _ hop => ⟨_, hop.holds_empty hcfg (by exact hnop'.ttl)
      (by exact hnop'.maxRecs) (by exact hpre) (by exact hcount)⟩

/-- A session after `init` with `clearOnInit` starts from nothing. -/
theorem wp_clearedSession (hcfg : cfg.Ok) (hclosed : st.Closed) (hnop : st.NoPolicies)
    (hset : Settled cfg.pre fs ∨ fs.dir (storePath cfg.pre .tmp) = none) {commands : List Command}
    (hc : ∀ c ∈ commands, c.WithinLimits) :
    cfg.env.wp (cfg.clearedSession st commands)
      (fun x _ => AnsweredAll ∅ commands x.1) fs := by
  rw [Config.clearedSession]
  refine Env.wp_seq (wp_init_clear hcfg hclosed hnop hset) ?_
  rintro ⟨b, st'⟩ fs' ⟨L, h⟩
  exact Prog.wp_mono (h.wp_performAll hcfg hc) fun _ _ hx => hx.1

/-- A session after `clear` starts from nothing. -/
theorem wp_clearAndPerform (hcfg : cfg.Ok) (hopen : cfg.Open st) (hnop : st.NoPolicies)
    (hset : Settled cfg.pre fs) {commands : List Command}
    (hc : ∀ c ∈ commands, c.WithinLimits) :
    cfg.env.wp (cfg.clearAndPerform st commands)
      (fun x _ => AnsweredAll ∅ commands x.1) fs := by
  rw [Config.clearAndPerform]
  refine Env.wp_seq (wp_clear_open hcfg hopen.pre hopen.segmentCount hopen.valid hnop.ttl
    hnop.maxRecs hopen.writeBuf hopen.indexFile hopen.activeFile hset) ?_
  rintro st' fs' ⟨L, h⟩
  exact Prog.wp_mono (h.wp_performAll hcfg hc) fun _ _ hx => hx.1

end clearing

/-- **Cleared for good.**  If recovery finds nothing to finish, a session after `clear`, or after `init`
with `clearOnInit`, answers as one that starts from nothing, restarts included.  For `init` it is
enough that there is no `compact.tmp`. -/
theorem clear_erases {cfg : Config} (hcfg : cfg.Ok) (fs : FileSystem) (st : Store)
    (hnop : st.NoPolicies) (commands : List Command) (hc : ∀ c ∈ commands, c.WithinLimits) :
    (cfg.Open st → Settled cfg.pre fs →
      (∀ x ∈ Prog.trace posix (cfg.clearAndPerform st commands) fs, cfg.Small x.2) →
      AnsweredAll ∅ commands (Prog.exec posix (cfg.clearAndPerform st commands) fs).1.1) ∧
    (st.Closed → Settled cfg.pre fs ∨ fs.dir (storePath cfg.pre .tmp) = none →
      (∀ x ∈ Prog.trace posix (cfg.clearedSession st commands) fs, cfg.Small x.2) →
      AnsweredAll ∅ commands (Prog.exec posix (cfg.clearedSession st commands) fs).1.1) :=
  ⟨fun hopen hset hsmall => Env.exec_of_wp (wp_clearAndPerform hcfg hopen hnop hset hc) hsmall,
    fun hclosed hset hsmall => Env.exec_of_wp (wp_clearedSession hcfg hclosed hnop hset hc) hsmall⟩

/-- The store and the files the sample session ends in have no policies and no journal, so a clear
there is for good, and so is one of no files at all. -/
theorem clear_erases_sample :
    AnsweredAll ∅ sampleCommands
        (Prog.exec posix (sampleConfig.clearAndPerform sampleEnd.1.2 sampleCommands) sampleEnd.2).1.1 ∧
      AnsweredAll ∅ sampleCommands (Prog.exec posix
        (sampleConfig.clearedSession (Store.new 65536 8 .recent) sampleCommands) .empty).1.1 := by
  have hc : ∀ c ∈ sampleCommands, c.WithinLimits := by
    simp [sampleCommands, Command.WithinLimits, Buf.bytes, maxKeyLen, maxValueLen]
  constructor
  · refine (clear_erases sampleConfig_ok sampleEnd.2 sampleEnd.1.2 ⟨by decide +kernel,
      by decide +kernel⟩ sampleCommands hc).1 ?_ (.of_none (by decide +kernel)) (by decide +kernel)
    exact ⟨by decide +kernel, by decide +kernel, by decide +kernel, by decide +kernel,
      by decide +kernel, by decide +kernel⟩
  · exact (clear_erases sampleConfig_ok .empty (Store.new 65536 8 .recent) ⟨rfl, rfl⟩ sampleCommands
      hc).2 ⟨rfl, rfl, rfl⟩ (.inr rfl) (by decide +kernel)

/-! ## A clear after an aborted compaction

The journal says how far the compaction had come, and the recovery goes by it, not knowing of the
clear. -/

/-- Segments of 30 bytes, three of them. -/
def tinyConfig : Config := ⟨['a'], 30, 3⟩

/-- Two puts that fill a segment each. -/
def twoPuts : List Command :=
  [.put ⟨0, 0, 0⟩ (.at [97]) (.at [1]) 0 0, .put ⟨0, 0, 0⟩ (.at [98]) (.at [2]) 0 0]

/-- What is left when the copies of segment 1 cannot be written: the journal says that one segment has
been copied and removed. -/
def aborted : (Bool × Store) × World :=
  let s := Prog.exec posix (tinyConfig.session .recent twoPuts) .empty
  Prog.exec (faulty fun _ fs c => match c with
    | .write f _ => if fs.dir (storePath ['a'] .tmp) = some f.ino ∧
        fs.dir (storePath ['a'] (.segment 0)) = none then some 0 else none
    | _ => none) (s.1.2.compact 0) ⟨s.2, 0⟩

/-- After an aborted compaction, `init` with `clearOnInit` brings the copied record back. -/
theorem clear_brings_back : ¬AnsweredAll ∅ [.get ⟨0, 0, 0⟩ (.at [97])]
    (Prog.exec posix (tinyConfig.clearedSession (Store.new 65536 8 .recent)
      [.get ⟨0, 0, 0⟩ (.at [97])]) aborted.2.fs).1.1 := by
  have h : (Prog.exec posix (tinyConfig.clearedSession (Store.new 65536 8 .recent)
      [.get ⟨0, 0, 0⟩ (.at [97])]) aborted.2.fs).1.1 = [.value (some [1])] := by
    decide +kernel
  rw [h]
  rintro ⟨a, as, he, ha, -⟩
  obtain ⟨rfl, -⟩ := List.cons.inj he
  cases ha

end MicroStore
