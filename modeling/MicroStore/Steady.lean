import MicroStore.Opening

/-!
# What the operations leave alone

The configuration of a store, its policies and the state of its cooldown are written in few places:
`init` and the setters write the first two, `rotate_segment_if_needed` the third.  Everything else
leaves them as they are, whatever the filesystem answers.

## What is here

* `Store.Steady` — two states of a store that agree on these members.
* `steady_flushBuffer` to `steady_compact` — one lemma for each function that writes files, named after
  it.  They hold for any answers of the filesystem (`Prog.always`), so failures need no cases of their
  own.
* `steady_init` — `init` sets the configuration and returns true, and the policies stay.

The order is that of the source, from the write buffer up.  The modules on the cooldown and on segment
sizes, whose invariants are about these members, use nothing else of the functions.
-/

set_option autoImplicit false

namespace MicroStore

open Prog

/-- The same configuration, policies and cooldown. -/
structure Store.Steady (st st' : Store) : Prop where
  /-- Whether `init` has succeeded. -/
  valid : st'.valid = st.valid
  /-- The prefix of the names. -/
  basePrefix : st'.basePrefix = st.basePrefix
  /-- The sizes. -/
  segmentSize : st'.segmentSize = st.segmentSize
  /-- And numbers of segments. -/
  segmentCount : st'.segmentCount = st.segmentCount
  /-- Whether a compaction is held off. -/
  compactInCooldown : st'.compactInCooldown = st.compactInCooldown
  /-- And since when. -/
  compactCooldownStartMs : st'.compactCooldownStartMs = st.compactCooldownStartMs
  /-- The TTL policy. -/
  policyTtlSecs : st'.policyTtlSecs = st.policyTtlSecs
  /-- The limit on records. -/
  policyMaxRecs : st'.policyMaxRecs = st.policyMaxRecs

namespace Store.Steady

variable {st st' st'' : Store}

/-- Nothing has changed. -/
theorem refl (st : Store) : st.Steady st := ⟨rfl, rfl, rfl, rfl, rfl, rfl, rfl, rfl⟩

/-- Nothing has changed twice. -/
theorem trans (h : st.Steady st') (h' : st'.Steady st'') : st.Steady st'' where
  valid := h'.valid.trans h.valid
  basePrefix := h'.basePrefix.trans h.basePrefix
  segmentSize := h'.segmentSize.trans h.segmentSize
  segmentCount := h'.segmentCount.trans h.segmentCount
  compactInCooldown := h'.compactInCooldown.trans h.compactInCooldown
  compactCooldownStartMs := h'.compactCooldownStartMs.trans h.compactCooldownStartMs
  policyTtlSecs := h'.policyTtlSecs.trans h.policyTtlSecs
  policyMaxRecs := h'.policyMaxRecs.trans h.policyMaxRecs

/-- Eviction changes the index alone. -/
theorem prune (st : Store) : st.Steady st.pruneIndexToMaxRecs.2 := by
  rw [pruneIndexToMaxRecs]
  dsimp only
  split
  · exact refl st
  · exact ⟨rfl, rfl, rfl, rfl, rfl, rfl, rfl, rfl⟩

/-- Counting a dead record changes the count alone. -/
theorem countDead (st : Store) (key : Key) : st.Steady (st.countDead key) := by
  rw [Store.countDead]
  split
  · exact ⟨rfl, rfl, rfl, rfl, rfl, rfl, rfl, rfl⟩
  · exact refl st

end Store.Steady

section steady

variable {st₀ st : Store}

theorem steady_flushBuffer (h : st₀.Steady st) : st.flushBuffer.always fun r => st₀.Steady r.2 := by
  rw [Store.flushBuffer]
  split
  · exact h
  split
  · exact h.trans ⟨rfl, rfl, rfl, rfl, rfl, rfl, rfl, rfl⟩
  · exact always_skip fun _ => always_skip fun _ => h.trans ⟨rfl, rfl, rfl, rfl, rfl, rfl, rfl, rfl⟩

theorem steady_appendLoop (fuel : Nat) {data : Bytes} (h : st₀.Steady st) :
    (Store.appendLoop fuel st data).always st₀.Steady := by
  induction fuel generalizing st data with
  | zero => exact h
  | succ fuel ih =>
    rw [Store.appendLoop]
    split
    · exact h
    dsimp only
    have hst (buf : Bytes) : st₀.Steady { st with writeBuf := buf } :=
      h.trans ⟨rfl, rfl, rfl, rfl, rfl, rfl, rfl, rfl⟩
    generalize (if data.length < _ then data.length else _) = n
    split
    · exact always_seq (steady_flushBuffer (hst _)) fun r hr => ih hr
    · exact ih (hst _)

theorem steady_appendBuffer (h : st₀.Steady st) (data : Bytes) :
    (st.appendBuffer data).always st₀.Steady :=
  steady_appendLoop data.length h

theorem steady_persistIndexEntry (h : st₀.Steady st) {key : Key} {seg off ts ttl : Nat}
    {priority : UInt8} : (st.persistIndexEntry key seg off ts ttl priority).always
      fun r => st₀.Steady r.2 := by
  rw [Store.persistIndexEntry]
  split
  · exact h
  · exact always_skip fun _ => always_skip fun _ => h.trans ⟨rfl, rfl, rfl, rfl, rfl, rfl, rfl, rfl⟩

theorem steady_openIndexForAppend (h : st₀.Steady st) : st.openIndexForAppend.always st₀.Steady := by
  rw [Store.openIndexForAppend]
  exact always_skip fun _ => h.trans ⟨rfl, rfl, rfl, rfl, rfl, rfl, rfl, rfl⟩

theorem steady_loadIndex (h : st₀.Steady st) : st.loadIndex.always fun r => st₀.Steady r.2 := by
  rw [Store.loadIndex]
  refine always_skip fun file => ?_
  cases file with
  | none => exact h
  | some f =>
    exact always_skip fun _ => always_skip fun _ => h.trans ⟨rfl, rfl, rfl, rfl, rfl, rfl, rfl, rfl⟩

theorem steady_openSegment (h : st₀.Steady st) (id : Nat) :
    (st.openSegment id).always fun r => st₀.Steady r.2 := by
  rw [Store.openSegment]
  refine always_skip fun _ => always_skip fun file => ?_
  cases file with
  | none => exact h.trans ⟨rfl, rfl, rfl, rfl, rfl, rfl, rfl, rfl⟩
  | some f =>
    exact always_skip fun _ => always_skip fun _ => h.trans ⟨rfl, rfl, rfl, rfl, rfl, rfl, rfl, rfl⟩

/-! ## Compaction and recovery

These call each other, so the lemmas follow the calls: `finalize_compaction` first, which a
compaction and a recovery end with. -/

theorem steady_finalizeCompaction (h : st₀.Steady st) :
    st.finalizeCompaction.always st₀.Steady := by
  rw [Store.finalizeCompaction]
  refine always_skip fun _ => always_skip fun renamed => ?_
  split
  · exact always_skip fun _ => h
  have rest (idx : Index) : (Store.rewriteIndex { st with index := idx }).always st₀.Steady := by
    refine always_mono (always_rewriteIndex _) ?_
    rintro _ ⟨file, rfl⟩
    exact h.trans ⟨rfl, rfl, rfl, rfl, rfl, rfl, rfl, rfl⟩
  dsimp only
  refine always_skip fun file => ?_
  cases file with
  | none => exact rest ∅
  | some f => exact always_skip fun p => always_skip fun _ => rest p.2

theorem steady_rebuildIndexFromSegments (h : st₀.Steady st) :
    st.rebuildIndexFromSegments.always st₀.Steady := by
  rw [Store.rebuildIndexFromSegments]
  exact always_skip fun _ => always_skip fun _ => always_skip fun _ => always_skip fun _ =>
    h.trans ⟨rfl, rfl, rfl, rfl, rfl, rfl, rfl, rfl⟩

theorem steady_recoverIfNeeded (h : st₀.Steady st) : st.recoverIfNeeded.always st₀.Steady := by
  rw [Store.recoverIfNeeded]
  refine always_skip fun file => ?_
  cases file with
  | none => exact h
  | some f =>
    refine always_skip fun x => always_skip fun _ => ?_
    dsimp only
    split
    · exact always_skip fun _ => h
    split
    · exact always_seq (steady_finalizeCompaction h) fun st' h' => always_skip fun _ => h'
    split
    · exact always_skip fun _ => always_skip fun _ => h
    refine always_skip fun renamed => ?_
    split
    · exact h
    · exact always_skip fun _ => h

theorem steady_compact (h : st₀.Steady st) {now : UInt32} :
    (st.compact now).always fun r => st₀.Steady r.2 := by
  rw [Store.compact]
  refine always_skip fun _ => always_skip fun file => ?_
  cases file with
  | none => exact always_skip fun _ => h
  | some outf =>
    have hp := h.trans (Store.Steady.prune st)
    refine always_skip fun x => always_skip fun _ => always_skip fun _ => ?_
    dsimp only
    split
    · split
      · exact always_skip fun _ => always_skip fun _ => hp
      · exact hp
    · exact always_skip fun _ => always_seq (steady_finalizeCompaction hp) fun st' h' =>
        always_skip fun _ => h'.trans ⟨rfl, rfl, rfl, rfl, rfl, rfl, rfl, rfl⟩

/-! ## Opening

`init` in its parts; each of them returns true. -/

theorem steady_clear (h : st₀.Steady st) : st.clear.always st₀.Steady := by
  rw [Store.clear]
  split
  · exact h
  refine always_seq (steady_flushBuffer h) fun r hr => always_skip fun _ => always_skip fun _ =>
    always_skip fun _ => always_skip fun _ => ?_
  have hcleared : st₀.Steady { r.2 with
      indexFile := none, activeFile := none, index := ∅, deadSinceCompact := 0, currentSegment := 0,
      currentOffset := 0, writeBuf := [] } :=
    hr.trans ⟨rfl, rfl, rfl, rfl, rfl, rfl, rfl, rfl⟩
  have opened (st : Store) (h : st₀.Steady st) (b : Bool) : (do
      let x ← if b then st.openSegment 0 else pure (true, st)
      pure x.2).always st₀.Steady := by
    cases b with
    | false => exact h
    | true => exact always_seq (steady_openSegment h 0) fun _ hx => hx
  dsimp only
  split
  · exact always_seq (steady_openIndexForAppend hcleared) fun _ h' => opened _ h' _
  · exact opened _ hcleared _

theorem steady_initTail (h : st₀.Steady st) :
    st.initTail.always fun x => x.1 = true ∧ st₀.Steady x.2 := by
  have hp := h.trans (Store.Steady.prune st)
  have opened : always (fun x => x.1 = true ∧ st₀.Steady x.2)
      st.pruneIndexToMaxRecs.2.openFiles :=
    always_seq (steady_openIndexForAppend hp) fun _ h => always_skip fun _ =>
      always_seq (steady_openSegment h _) fun _ h => ⟨rfl, h⟩
  rw [Store.initTail]
  dsimp only
  split
  · exact always_skip fun _ => always_skip fun _ => opened
  · exact opened

theorem steady_initIndex (h : st₀.Steady st) :
    st.initIndex.always fun x => x.1 = true ∧ st₀.Steady x.2 := by
  rw [Store.initIndex]
  refine always_seq (steady_loadIndex h) fun x hx => ?_
  obtain ⟨loaded, st'⟩ := x
  cases loaded with
  | true => exact steady_initTail hx
  | false => exact always_seq (steady_rebuildIndexFromSegments hx) fun _ h => steady_initTail h

theorem steady_initFiles (h : st₀.Steady st) (clearOnInit : Bool) :
    (st.initFiles clearOnInit).always fun x => x.1 = true ∧ st₀.Steady x.2 := by
  rw [Store.initFiles]
  cases clearOnInit with
  | true =>
    refine always_seq (steady_clear h) fun st' h' => ?_
    exact always_seq (steady_recoverIfNeeded h') fun _ h => steady_initIndex h
  | false =>
    show always _ (st.recoverIfNeeded >>= Store.initIndex)
    exact always_seq (steady_recoverIfNeeded h) fun _ h => steady_initIndex h

/-- `init` returns true, with the configuration it was called with. -/
theorem steady_init (st : Store) (pre : Path) (clearOnInit : Bool) (segmentSize : UInt32)
    (segmentCount : UInt8) : (st.init pre clearOnInit segmentSize segmentCount).always fun x =>
      x.1 = true ∧ (st.configured pre segmentSize segmentCount).Steady x.2 := by
  rw [Store.init_eq]
  dsimp only
  split
  · exact always_skip fun _ => steady_initFiles (.refl _) _
  · exact steady_initFiles (.refl _) _

end steady

end MicroStore
