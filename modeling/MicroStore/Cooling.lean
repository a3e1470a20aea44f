import MicroStore.Library.Lockstep
import MicroStore.Steady

/-!
# Backing off after a failed compaction

`put` and `remove` start a compaction in two places: `rotate_segment_if_needed` when the segments are
full, `compact_if_threshold` when enough records are dead.  The operations are run here with a report of
these attempts (`updateLog`, which is the operation once the report is dropped), in runs with any
filesystem and any moments the clock is read at.  Only the first of the two places sets and consults the
cooldown.  So an attempt keeps its distance from a failed one before it as long as the other place
starts none during a cooldown and none that fails (`backs_off_of_cooled`).

## What is here

* `Attempt`, `Attempt.BacksOff` — a compaction with the moments it started and returned at, and whether
  it succeeded; a later attempt keeps its distance from a failed one.
* `Moments` — the readings of the clock during one operation, in milliseconds without wrapping.  The
  store sees them modulo `2 ^ 32`.
* `Store.rotateLog`, `Store.compactIfThresholdLog`, `Store.updateLog` — the functions with a report,
  each shown to be the function of the source once the report is dropped (`Lockstep`).
* `Store.SameCooldown`, `Store.Rotated` — what an operation may do to the state of the cooldown.
* `served` — programs whose calls all succeed: then so does a compaction, which is how the condition can
  be met.
* `Store.Cooled` — the condition on a step: the threshold starts no compaction while the store is to
  cool down, and none that fails.
* `Store.Remembers` — the invariant: the store remembers the last failed attempt, or its distance has
  been kept, also when the clock has wrapped.
* `backs_off_of_cooled` — the result; `threshold_ignores_cooldown` — a run that breaks it.
-/

set_option autoImplicit false

namespace MicroStore

open Prog

/-! ## Attempts and moments

Time goes on without wrapping here, so that distances are what they are. -/

/-- An attempt at an automatic compaction: when `compact` was called, when it returned, and what. -/
structure Attempt where
  /-- When it was started. -/
  started : Nat
  /-- When it returned. -/
  returned : Nat
  /-- Whether it succeeded. -/
  ok : Bool
  deriving DecidableEq, Repr

/-- No attempt is started within `USTORE_COMPACT_RETRY_MS` of a failed one. -/
def Attempt.BacksOff (a b : Attempt) : Prop := a.ok = false → a.returned + compactRetryMs ≤ b.started

instance (a b : Attempt) : Decidable (a.BacksOff b) := inferInstanceAs (Decidable (_ → _))

/-- The moments of an operation, in milliseconds: `rotate_segment_if_needed` reads the clock, its
compaction is started and returns, it reads the clock again; the compaction of `compact_if_threshold`
is started and returns. -/
structure Moments where
  /-- The reading that is compared with the beginning of a cooldown. -/
  checked : Nat
  /-- The start of a compaction by `rotate_segment_if_needed`. -/
  started : Nat
  /-- Its end. -/
  returned : Nat
  /-- The reading that begins a cooldown. -/
  stamped : Nat
  /-- The start of a compaction by `compact_if_threshold`. -/
  restarted : Nat
  /-- Its end. -/
  finished : Nat

/-- They follow each other. -/
def Moments.Ordered (m : Moments) : Prop :=
  m.checked ≤ m.started ∧ m.started ≤ m.returned ∧ m.returned ≤ m.stamped ∧
    m.stamped ≤ m.restarted ∧ m.restarted ≤ m.finished

instance (m : Moments) : Decidable m.Ordered := inferInstanceAs (Decidable (_ ∧ _))

/-- What the operation reads of the clock: `millis()` has 32 bits. -/
def Moments.clock (m : Moments) (time : UInt32) : Clock where
  time := time
  millis := UInt32.ofNat m.checked
  millisAfter := UInt32.ofNat m.stamped

/-- The attempt between two moments, if one is reported. -/
def Attempt.reported (started returned : Nat) : Option Bool → List Attempt
  | none => []
  | some ok => [⟨started, returned, ok⟩]

/-- The attempts of an operation. -/
def Moments.attempts (m : Moments) (report : Option Bool × Option Bool) : List Attempt :=
  Attempt.reported m.started m.returned report.1 ++ Attempt.reported m.restarted m.finished report.2

/-! ## The operations, with a report of the attempts

Copies of the source functions that return in addition whether they ran a compaction, and how it
went. -/

namespace Store

variable {st : Store}

/-- The cooldown is running, as `rotate_segment_if_needed` sees it. -/
def cooling (st : Store) (millis : UInt32) : Prop :=
  st.compactInCooldown ∧ (millis - st.compactCooldownStartMs).toNat < compactRetryMs

instance (st : Store) (millis : UInt32) : Decidable (st.cooling millis) :=
  inferInstanceAs (Decidable (_ ∧ _))

/-- The dead-record threshold is reached, as `compact_if_threshold` sees it. -/
def atThreshold (st : Store) : Prop :=
  0 < wrap32 (st.indexSize + st.deadSinceCompact) ∧
    compactThreshold ≤ wrap32 (st.deadSinceCompact * 100) / wrap32 (st.indexSize + st.deadSinceCompact)

instance (st : Store) : Decidable st.atThreshold := inferInstanceAs (Decidable (_ ∧ _))

/-- `compact_if_threshold`, reporting its attempt. -/
def compactIfThresholdLog (st : Store) (now : UInt32) : FsM (Store × Option Bool) := do
  if st.atThreshold then
    let (ok, st) ← st.compact now
    if ok then
      let st := { st with currentSegment := 1 }
      let (_, st) ← st.openSegment st.currentSegment
      pure (st, some ok)
    else pure (st, some ok)
  else pure (st, none)

/-- `rotate_segment_if_needed`, reporting its attempt. -/
def rotateLog (st : Store) (clk : Clock) (writeSize : Nat) : FsM ((Bool × Store) × Option Bool) := do
  if wrap32 (st.currentOffset + writeSize) + headerSize + commitSize < st.segmentSize.toNat then
    pure ((true, st), none)
  else
    let (_, st) ← st.flushBuffer
    closeFile st.activeFile
    let st := { st with activeFile := none, currentSegment := wrap32 (st.currentSegment + 1) }
    if st.currentSegment < st.count then
      let (_, st) ← st.openSegment st.currentSegment
      pure ((true, st), none)
    else if st.cooling clk.millis then
      let st := { st with currentSegment := st.lastSegment }
      let (_, st) ← st.openSegment st.currentSegment
      pure ((false, st), none)
    else
      let (ok, st) ← st.compact clk.time
      if !ok then
        let st := { st with
          compactInCooldown := true
          compactCooldownStartMs := clk.millisAfter
          currentSegment := st.lastSegment }
        let (_, st) ← st.openSegment st.currentSegment
        pure ((false, st), some ok)
      else
        let st := { st with compactInCooldown := false, currentSegment := 1 }
        let (_, st) ← st.openSegment st.currentSegment
        pure ((true, st), some ok)

/-- Without the report it is `compact_if_threshold`. -/
theorem lockstep_compactIfThresholdLog (st : Store) (now : UInt32) :
    Lockstep (fun x y => x.1 = y) (st.compactIfThresholdLog now) (st.compactIfThreshold now) := by
  rw [compactIfThresholdLog, compactIfThreshold]
  dsimp only
  by_cases h : st.atThreshold
  · rw [if_pos h, if_pos (show _ ∧ _ from h)]
    refine .seq ?_
    rintro ⟨ok, st⟩
    cases ok with
    | false => exact .pure rfl
    | true => exact .seq fun _ => .pure rfl
  · rw [if_neg h, if_neg (show ¬(_ ∧ _) from h)]
    exact .pure rfl

/-- Without the report it is `rotate_segment_if_needed`. -/
theorem lockstep_rotateLog (st : Store) (clk : Clock) (writeSize : Nat) :
    Lockstep (fun x y => x.1 = y) (st.rotateLog clk writeSize)
      (st.rotateSegmentIfNeeded clk writeSize) := by
  rw [rotateLog, rotateSegmentIfNeeded]
  split
  · exact .pure rfl
  refine .seq ?_
  rintro ⟨_, st⟩
  refine .seq fun _ => ?_
  dsimp only
  split
  · exact .seq fun _ => .pure rfl
  by_cases h : Store.cooling { st with
      activeFile := none, currentSegment := wrap32 (st.currentSegment + 1) } clk.millis
  · rw [if_pos h, if_pos (show _ ∧ _ from h)]
    exact .seq fun _ => .pure rfl
  · rw [if_neg h, if_neg (show ¬(_ ∧ _) from h)]
    refine .seq ?_
    rintro ⟨ok, st⟩
    cases ok with
    | false => exact .seq fun _ => .pure rfl
    | true => exact .seq fun _ => .pure rfl

end Store

/-- A put or a remove, with its arguments. -/
inductive Update
  | put (key data : Buf) (ttl ts : UInt32) (priority : UInt8)
  | remove (key : Buf) (junkTtl : UInt32) (junkPriority : UInt8)

namespace Store

/-- The operation. -/
def update (st : Store) (clk : Clock) : Update → FsM (Bool × Store)
  | .put key data ttl ts priority => st.put clk key data ttl ts priority
  | .remove key junkTtl junkPriority => st.remove clk key junkTtl junkPriority

/-- The operation up to `compact_if_threshold`, reporting the attempt of the rotation.  It says
whether it gets that far. -/
def updateHead (st : Store) (clk : Clock) : Update → FsM ((Bool × Store) × Option Bool)
  | .put key data ttl ts priority => do
    if !st.valid then pure ((false, st), none)
    else if maxKeyLen < key.bytes.length then pure ((false, st), none)
    else if maxValueLen < data.bytes.length then pure ((false, st), none)
    else
      let ((_, st), rotated) ← st.rotateLog clk data.bytes.length
      let hdr := putHeader key data ttl ts priority
      let offset := st.currentOffset
      let st ← st.appendBuffer hdr.encode
      let st ← st.appendBuffer key.bytes
      let st ← st.appendBuffer data.bytes
      let st ← st.appendBuffer commitBytes
      let (flushed, st) ← st.flushBuffer
      if !flushed then pure ((false, st), rotated)
      else
        let st := st.countDead key.bytes
        let st := st.indexInsert key.bytes st.currentSegment offset ts ttl.toNat priority
        let st := if st.policyMaxRecs.toNat > 0 ∧ st.indexSize > st.policyMaxRecs.toNat then
            st.pruneIndexToMaxRecs.2
          else st
        let (_, st) ← st.persistIndexEntry key.bytes st.currentSegment offset ts.toNat ttl.toNat
          priority
        pure ((true, { st with
          currentOffset := wrap32 (st.currentOffset + headerSize + key.bytes.length
            + data.bytes.length + commitSize) }), rotated)
  | .remove key junkTtl junkPriority => do
    if !st.valid then pure ((false, st), none)
    else if maxKeyLen < key.bytes.length then pure ((false, st), none)
    else
      let hdr := removeHeader key junkTtl junkPriority
      let st ← st.appendBuffer hdr.encode
      let st ← st.appendBuffer key.bytes
      let st ← st.appendBuffer commitBytes
      let (_, st) ← st.flushBuffer
      let st := st.countDead key.bytes
      let st := st.indexRemove key.bytes
      let (_, st) ← st.persistIndexEntry key.bytes deletedSeg 0 0 0 0
      pure ((true, { st with
        currentOffset := wrap32 (st.currentOffset + headerSize + key.bytes.length + commitSize) }),
          none)

/-- The operation, reporting the attempts of the rotation and of `compact_if_threshold`. -/
def updateLog (st : Store) (clk : Clock) (u : Update) :
    FsM ((Bool × Store) × Option Bool × Option Bool) := do
  let ((goes, st), rotated) ← st.updateHead clk u
  if goes then
    let (st, crossed) ← st.compactIfThresholdLog clk.time
    pure ((true, st), rotated, crossed)
  else pure ((false, st), rotated, none)

/-- Apart from the report, it is the operation. -/
theorem lockstep_updateLog (st : Store) (clk : Clock) (u : Update) :
    Lockstep (fun x y => x.1 = y) (st.updateLog clk u) (st.update clk u) := by
  -- what is left to do at the end
  have last (st : Store) (rotated : Option Bool) : Lockstep (fun x y => x.1 = y)
      (do
        let (st, crossed) ← st.compactIfThresholdLog clk.time
        pure ((true, st), rotated, crossed))
      (do
        let st ← st.compactIfThreshold clk.time
        pure (true, st)) := by
    refine (lockstep_compactIfThresholdLog st clk.time).bind ?_
    rintro ⟨st, crossed⟩ _ rfl
    exact .pure rfl
  cases u with
  | put key data ttl ts priority =>
    rw [updateLog, updateHead, update, put]
    by_cases h : (!st.valid) = true
    · rw [if_pos h, if_pos h]
      exact .pure rfl
    rw [if_neg h, if_neg h]
    by_cases h : maxKeyLen < key.bytes.length
    · rw [if_pos h, if_pos h]
      exact .pure rfl
    rw [if_neg h, if_neg h]
    by_cases h : maxValueLen < data.bytes.length
    · rw [if_pos h, if_pos h]
      exact .pure rfl
    rw [if_neg h, if_neg h]
    simp only [Prog.bind_assoc]
    refine (lockstep_rotateLog st clk data.bytes.length).bind ?_
    rintro ⟨⟨b, st⟩, rotated⟩ _ rfl
    refine .seq fun st => .seq fun st => .seq fun st => .seq fun st => .seq ?_
    rintro ⟨flushed, st⟩
    cases flushed with
    | false => exact .pure rfl
    | true =>
      simp only [Bool.not_true, Bool.false_eq_true, if_false, Prog.bind_assoc]
      exact .seq fun x => last _ rotated
  | remove key junkTtl junkPriority =>
    rw [updateLog, updateHead, update, remove]
    by_cases h : (!st.valid) = true
    · rw [if_pos h, if_pos h]
      exact .pure rfl
    rw [if_neg h, if_neg h]
    by_cases h : maxKeyLen < key.bytes.length
    · rw [if_pos h, if_pos h]
      exact .pure rfl
    rw [if_neg h, if_neg h]
    simp only [Prog.bind_assoc]
    exact .seq fun st => .seq fun st => .seq fun st => .seq fun x => .seq fun y => last _ none

end Store

/-! ## What an operation does to the cooldown

From `Steady.lean`: nothing but `rotate_segment_if_needed` writes these members. -/

/-- The state of the cooldown is the same. -/
def Store.SameCooldown (st st' : Store) : Prop :=
  st'.compactInCooldown = st.compactInCooldown ∧
    st'.compactCooldownStartMs = st.compactCooldownStartMs

/-- The state of the cooldown is the same. -/
theorem Store.Steady.cooldown {st st' : Store} (h : st.Steady st') : st.SameCooldown st' :=
  ⟨h.compactInCooldown, h.compactCooldownStartMs⟩

/-- What the rotation does to the cooldown, by what it reports: an attempt is made outside of a
cooldown only, it begins one if it fails and ends it if it does not. -/
def Store.Rotated (st st' : Store) (clk : Clock) : Option Bool → Prop
  | none => st.SameCooldown st'
  | some true => ¬st.cooling clk.millis ∧ st'.compactInCooldown = false
  | some false => ¬st.cooling clk.millis ∧ st'.compactInCooldown = true ∧
      st'.compactCooldownStartMs = clk.millisAfter

section cooldown

variable {st : Store} {clk : Clock}

/-- What follows a rotation changes nothing of it. -/
theorem Store.Rotated.steady {st' st'' : Store} {report : Option Bool}
    (h : st.Rotated st' clk report) (h' : st'.Steady st'') : st.Rotated st'' clk report := by
  cases report with
  | none => exact ⟨h'.compactInCooldown.trans h.1, h'.compactCooldownStartMs.trans h.2⟩
  | some ok =>
    cases ok with
    | true => exact ⟨h.1, h'.compactInCooldown.trans h.2⟩
    | false => exact ⟨h.1, h'.compactInCooldown.trans h.2.1, h'.compactCooldownStartMs.trans h.2.2⟩

/-- What a rotation does to it. -/
theorem rotated_rotateLog {writeSize : Nat} :
    (st.rotateLog clk writeSize).always fun r => st.Rotated r.1.2 clk r.2 := by
  rw [Store.rotateLog]
  split
  · exact ⟨rfl, rfl⟩
  refine always_seq (steady_flushBuffer (.refl st)) fun r hr => always_skip fun _ => ?_
  -- the segment that is opened in the end
  have opened (st' : Store) (report : Option Bool) (h : st.Rotated st' clk report) (b : Bool)
      (id : Nat) : (st'.openSegment id >>= fun x => (pure ((b, x.2), report) : FsM _)).always
        fun r => st.Rotated r.1.2 clk r.2 :=
    always_seq (steady_openSegment (.refl st') id) fun x hx => h.steady hx
  have hmoved : st.Steady { r.2 with
      activeFile := none, currentSegment := wrap32 (r.2.currentSegment + 1) } :=
    hr.trans ⟨rfl, rfl, rfl, rfl, rfl, rfl, rfl, rfl⟩
  generalize ({ r.2 with
      activeFile := none, currentSegment := wrap32 (r.2.currentSegment + 1) } : Store) = st₁ at hmoved ⊢
  dsimp only
  split
  · exact opened st₁ none hmoved.cooldown true _
  split
  · exact opened { st₁ with currentSegment := st₁.lastSegment } none
      ⟨hmoved.compactInCooldown, hmoved.compactCooldownStartMs⟩ false _
  next hcool =>
  have hno : ¬st.cooling clk.millis := by
    rwa [Store.cooling, hmoved.compactInCooldown, hmoved.compactCooldownStartMs] at hcool
  refine always_seq (steady_compact hmoved) fun x _ => ?_
  obtain ⟨ok, st'⟩ := x
  cases ok with
  | false => exact opened _ (some false) ⟨hno, rfl, rfl⟩ false _
  | true => exact opened _ (some true) ⟨hno, rfl⟩ true _

/-- So does the operation up to its end. -/
theorem rotated_updateHead {u : Update} :
    (st.updateHead clk u).always fun r => st.Rotated r.1.2 clk r.2 := by
  have same : st.Rotated st clk none := ⟨rfl, rfl⟩
  cases u with
  | put key data ttl ts priority =>
    rw [Store.updateHead]
    split
    · exact same
    split
    · exact same
    split
    · exact same
    refine always_seq rotated_rotateLog fun x h => ?_
    obtain ⟨⟨_, st₁⟩, report⟩ := x
    have h₀ := Store.Steady.refl st₁
    refine always_seq (steady_appendBuffer h₀ _) fun st₂ h₂ => ?_
    refine always_seq (steady_appendBuffer h₂ _) fun st₃ h₃ => ?_
    refine always_seq (steady_appendBuffer h₃ _) fun st₄ h₄ => ?_
    refine always_seq (steady_appendBuffer h₄ _) fun st₅ h₅ => ?_
    refine always_seq (steady_flushBuffer h₅) fun r' h₆ => ?_
    dsimp only
    split
    · exact h.steady h₆
    have inserted (e : Index) : st₁.Steady { r'.2.countDead key.bytes with index := e } :=
      (h₆.trans (.countDead r'.2 key.bytes)).trans ⟨rfl, rfl, rfl, rfl, rfl, rfl, rfl, rfl⟩
    rw [prune_if_exceeds]
    refine always_seq (steady_persistIndexEntry ((inserted _).trans (.prune _))) fun x hx => h.steady ?_
    exact hx.trans ⟨rfl, rfl, rfl, rfl, rfl, rfl, rfl, rfl⟩
  | remove key junkTtl junkPriority =>
    rw [Store.updateHead]
    split
    · exact same
    split
    · exact same
    refine always_seq (steady_appendBuffer (.refl st) _) fun st₂ h₂ => ?_
    refine always_seq (steady_appendBuffer h₂ _) fun st₃ h₃ => ?_
    refine always_seq (steady_appendBuffer h₃ _) fun st₄ h₄ => ?_
    refine always_seq (steady_flushBuffer h₄) fun r h₅ => ?_
    have removed (e : Index) : st.Steady { r.2.countDead key.bytes with index := e } :=
      (h₅.trans (.countDead r.2 key.bytes)).trans ⟨rfl, rfl, rfl, rfl, rfl, rfl, rfl, rfl⟩
    refine always_seq (steady_persistIndexEntry (removed _)) fun x hx => same.steady ?_
    exact hx.trans ⟨rfl, rfl, rfl, rfl, rfl, rfl, rfl, rfl⟩

/-- The threshold does nothing to it. -/
theorem steady_compactIfThresholdLog {now : UInt32} :
    (st.compactIfThresholdLog now).always fun r => st.Steady r.1 := by
  rw [Store.compactIfThresholdLog]
  split
  · refine always_seq (steady_compact (.refl st)) fun x hx => ?_
    obtain ⟨ok, st'⟩ := x
    cases ok with
    | false => exact hx
    | true =>
      have hone : st.Steady { st' with currentSegment := 1 } :=
        hx.trans ⟨rfl, rfl, rfl, rfl, rfl, rfl, rfl, rfl⟩
      exact always_seq (steady_openSegment hone _) fun _ h => h
  · exact .refl st

/-- `compact_if_threshold` reports what its compaction returns, if it makes one. -/
theorem exec_compactIfThresholdLog {σ : Type} (h : (c : Call) → σ → c.Reply × σ) (now : UInt32) (s : σ) :
    (exec h (st.compactIfThresholdLog now) s).1.2
      = if st.atThreshold then some (exec h (st.compact now) s).1.1 else none := by
  rw [Store.compactIfThresholdLog]
  split
  · rw [exec_bind]
    generalize (exec h (st.compact now) s) = x
    obtain ⟨⟨ok, st'⟩, s'⟩ := x
    cases ok with
    | false => rfl
    | true =>
      dsimp only
      rw [if_pos rfl, exec_bind]
      rfl
  · rfl

end cooldown

/-! ## When a compaction succeeds

A compaction fails if `compact.tmp` cannot be opened or a write to it falls short.  If neither
happens it succeeds, whatever it reads. -/

/-- The file opens, if it is to be written; a write to such a file takes all its bytes. -/
def Call.Served : (c : Call) → c.Reply → Prop
  | .open _ .write, file => ∃ f, file = some f ∧ f.mode = .write
  | .write f data, r => f.mode = .write → r.1 = data.length ∧ r.2.mode = .write
  | _, _ => True

/-- Without a fault they do. -/
theorem Call.served_posix (c : Call) (fs : FileSystem) : c.Served (posix c fs).1 := by
  cases c with
  | «open» p mode =>
    cases mode with
    | write =>
      rw [posix]
      cases fs.dir p with
      | none => exact ⟨_, rfl, rfl⟩
      | some i => exact ⟨_, rfl, rfl⟩
    | read | append | readWrite | readAppend => trivial
  | write f bs =>
    intro hf
    rw [posix, hf]
    exact ⟨rfl, rfl⟩
  | read | seek | tell | flush | close | remove | rename | mkdir => trivial

section served

variable {σ α β : Type} {s : σ}

/-- Weakest preconditions on a filesystem that serves opens and writes. -/
abbrev served (p : FsM α) (Q : α → Prop) (s : σ) : Prop :=
  wp (fun c (_ : σ) r (_ : σ) => c.Served r) (fun _ _ => True) p (fun a _ => Q a) s

/-- A program whose result does not matter. -/
theorem served_skip {p : FsM α} {f : α → FsM β} {Q : β → Prop} (h : ∀ a (s : σ), served (f a) Q s) :
    served (p >>= f) Q s := by
  induction p generalizing s with
  | ret a => exact h a s
  | call c k ih => exact ⟨trivial, fun r s' _ => ih r⟩

/-- Sequencing. -/
theorem served_seq {p : FsM α} {f : α → FsM β} {Q : α → Prop} {Q' : β → Prop} (hp : served p Q s)
    (h : ∀ a, Q a → ∀ s : σ, served (f a) Q' s) : served (p >>= f) Q' s :=
  wp_seq hp fun a s' ha => h a ha s'

/-- A write transfers all it is given. -/
theorem served_write {f : Handle} (hf : f.mode = .write) {data : Bytes} {k : Nat × Handle → FsM β}
    {Q : β → Prop} (h : ∀ f' : Handle, f'.mode = .write → ∀ s : σ, served (k (data.length, f')) Q s) :
    served (f.writeBytes data >>= k) Q s := by
  refine ⟨trivial, fun r s' hr => ?_⟩
  obtain ⟨n, f'⟩ := r
  obtain ⟨rfl, hf'⟩ := hr hf
  exact h f' hf' s'

/-- A file that is created is open. -/
theorem served_create {p : Path} {k : File → FsM β} {Q : β → Prop}
    (h : ∀ f : Handle, f.mode = .write → ∀ s : σ, served (k (some f)) Q s) :
    served (openFile p .write >>= k) Q s := by
  refine ⟨trivial, fun file s' hfile => ?_⟩
  obtain ⟨f, rfl, hf⟩ := hfile
  exact h f hf s'

/-- Several writes. -/
theorem served_writeAll {f : Handle} (hf : f.mode = .write) (bss : List Bytes) :
    served (f.writeAll bss) (fun r => r.1 = (bss.map List.length).sum ∧ r.2.mode = .write) s := by
  induction bss generalizing f s with
  | nil => exact ⟨rfl, hf⟩
  | cons bs bss ih =>
    rw [Handle.writeAll]
    refine served_write hf fun f hf s => served_seq (ih hf) fun x hx s => ⟨?_, hx.2⟩
    show bs.length + x.1 = _
    rw [hx.1, List.map_cons, List.sum_cons]

/-- The copying of the records of a segment. -/
theorem served_copyRecords (offsets : List Nat) (src : Handle) {outf : Handle}
    (hf : outf.mode = .write) :
    served (copyRecords offsets src outf) (fun r => r.1 = true ∧ r.2.2.mode = .write) s := by
  induction offsets generalizing src outf s with
  | nil => exact ⟨rfl, hf⟩
  | cons off offsets ih =>
    rw [copyRecords]
    refine served_skip fun src s => served_skip ?_
    rintro ⟨h, src⟩ s
    dsimp only
    split
    · exact ih _ hf
    split
    · exact ih _ hf
    refine served_skip ?_
    rintro ⟨key, src⟩ s
    dsimp only
    split
    · exact ih _ hf
    next hkey =>
    -- what is written is as long as what is expected
    have copied (x : Bytes × Handle) (value : List Bytes) (s : σ)
        (hvalue : x.1.length = (RecordHeader.decode h).length.toNat →
          (value.map List.length).sum = (RecordHeader.decode h).length.toNat) :
        served (if x.1.length ≠ (RecordHeader.decode h).length.toNat then
            copyRecords offsets x.2 outf else do
          let y ← outf.writeAll ([(RecordHeader.decode h).encode, key] ++ value ++ [commitBytes])
          if y.1 ≠ headerSize + (RecordHeader.decode h).keyLen.toNat +
            (RecordHeader.decode h).length.toNat + commitSize then pure (false, x.2, y.2)
          else copyRecords offsets x.2 y.2) (fun r => r.1 = true ∧ r.2.2.mode = .write) s := by
      split
      · exact ih _ hf
      next hval =>
      refine served_seq (served_writeAll hf _) fun y hy s => ?_
      have hcommit : commitBytes.length = commitSize := length_toLE ..
      have hsum : y.1 = headerSize + (RecordHeader.decode h).keyLen.toNat +
          (RecordHeader.decode h).length.toNat + commitSize := by
        rw [hy.1, ← hvalue (not_not.1 hval), ← not_not.1 hkey]
        simp only [List.map_append, List.map_cons, List.map_nil, List.sum_append, List.sum_cons,
          List.sum_nil, RecordHeader.length_encode, hcommit]
        omega
      rw [if_neg (not_not.2 hsum)]
      exact ih _ hy.2
    split
    · exact served_skip fun x s => copied x [x.1] s fun hx => by simpa using hx
    · exact copied ([], src) [] s fun hx => by simpa using hx

/-- The loop over the segments. -/
theorem served_compactLoop (st : Store) (now : UInt32) (n seg : Nat) {outf : Handle}
    (hf : outf.mode = .write) : served (st.compactLoop now n seg outf) (fun r => r.1 = true) s := by
  induction n generalizing seg outf s with
  | zero => exact rfl
  | succ n ih =>
    rw [Store.compactLoop]
    have rest (x : Bool × Handle) (hx : x.1 = true) (hf : x.2.mode = .write) (s : σ) :
        served (if !x.1 then pure (false, seg, x.2) else do
          x.2.flush
          let validSize ← x.2.tell
          st.writeJournal .compacting (seg + 1) validSize
          let _ ← removeFile (st.segmentName seg)
          st.compactLoop now n (seg + 1) x.2) (fun r => r.1 = true) s := by
      rw [hx]
      exact served_skip fun _ s => served_skip fun _ s => served_skip fun _ s => served_skip fun _ s =>
        ih _ hf
    dsimp only
    split
    · exact rest (true, outf) rfl hf s
    refine served_skip fun file s => ?_
    cases file with
    | none => exact rest (true, outf) rfl hf s
    | some src =>
      refine served_seq (served_copyRecords _ src hf) fun x hx s => served_skip fun _ s => ?_
      exact rest (x.1, x.2.2) hx.1 hx.2 s

/-- A compaction that is served succeeds. -/
theorem served_compact (st : Store) (now : UInt32) :
    served (st.compact now) (fun r => r.1 = true) s := by
  rw [Store.compact]
  refine served_skip fun _ s => served_create fun outf hf s => ?_
  refine served_seq (served_compactLoop _ now _ _ hf) fun x hx s => ?_
  refine served_skip fun _ s => served_skip fun _ s => ?_
  dsimp only
  rw [hx]
  exact served_skip fun _ s => served_skip fun _ s => served_skip fun _ s => rfl

end served

/-! ## Runs

A run is a list of operations with their moments; `Chronological` says that these are in order. -/

/-- An operation and the moments it is performed at. -/
structure TimedUpdate where
  /-- The operation. -/
  update : Update
  /-- Its moments. -/
  moments : Moments
  /-- The time in seconds. -/
  time : UInt32

/-- What it reads of the clock. -/
def TimedUpdate.clock (u : TimedUpdate) : Clock := u.moments.clock u.time

/-- The operations follow each other from a moment on. -/
def Chronological : Nat → List TimedUpdate → Prop
  | _, [] => True
  | now, u :: us => now ≤ u.moments.checked ∧ u.moments.Ordered ∧ Chronological u.moments.finished us

instance decidableChronological : (now : Nat) → (us : List TimedUpdate) →
    Decidable (Chronological now us)
  | _, [] => .isTrue trivial
  | _, u :: us =>
    have := decidableChronological u.moments.finished us
    inferInstanceAs (Decidable (_ ∧ _ ∧ _))

section runs

variable {σ : Type} (h : (c : Call) → σ → c.Reply × σ)

/-- The state after an operation, with its attempts. -/
def Store.stepLog (u : TimedUpdate) (st : Store) (s : σ) : (Store × σ) × List Attempt :=
  let r := exec h (st.updateLog u.clock u.update) s
  ((r.1.1.2, r.2), u.moments.attempts r.1.2)

/-- The attempts of a run of puts and removes, whatever the filesystem answers. -/
def Store.runLog : List TimedUpdate → Store → σ → List Attempt
  | [], _, _ => []
  | u :: us, st, s =>
    let r := st.stepLog h u s
    r.2 ++ Store.runLog us r.1.1 r.1.2

/-- If the operation comes to `compact_if_threshold` with the threshold reached, the cooldown is not
running and `compact` succeeds. -/
def Store.Cooled (u : TimedUpdate) (st : Store) (s : σ) : Prop :=
  let r := exec h (st.updateHead u.clock u.update) s
  r.1.1.1 = true → r.1.1.2.atThreshold →
    ¬r.1.1.2.cooling (UInt32.ofNat u.moments.restarted) ∧
      (exec h (r.1.1.2.compact u.time) r.2).1.1 = true

/-- So it is at every operation of the run. -/
def Store.AllCooled : List TimedUpdate → Store → σ → Prop
  | [], _, _ => True
  | u :: us, st, s => st.Cooled h u s ∧
      Store.AllCooled us (st.stepLog h u s).1.1 (st.stepLog h u s).1.2

/-- The state after an operation is that of the operation. -/
theorem Store.stepLog_fst (u : TimedUpdate) (st : Store) (s : σ) :
    (st.stepLog h u s).1 = ((exec h (st.update u.clock u.update) s).1.2,
      (exec h (st.update u.clock u.update) s).2) := by
  obtain ⟨h1, h2⟩ := (lockstep_updateLog st u.clock u.update).exec h s
  exact Prod.ext (congrArg Prod.snd h1) h2

/-- Every failed attempt lies back far enough, or began the cooldown that is running. -/
def Store.Remembers (st : Store) (log : List Attempt) (now : Nat) : Prop :=
  ∀ a ∈ log, a.ok = false → a.returned + compactRetryMs ≤ now ∨
    ∃ t, st.compactInCooldown = true ∧ st.compactCooldownStartMs = UInt32.ofNat t ∧
      a.returned ≤ t ∧ t ≤ now

instance (u : TimedUpdate) (st : Store) (s : σ) : Decidable (st.Cooled h u s) :=
  inferInstanceAs (Decidable (_ → _ → _ ∧ _))

instance decidableAllCooled : (us : List TimedUpdate) → (st : Store) → (s : σ) →
    Decidable (st.AllCooled h us s)
  | [], _, _ => .isTrue trivial
  | u :: us, st, s =>
    have := decidableAllCooled us (st.stepLog h u s).1.1 (st.stepLog h u s).1.2
    inferInstanceAs (Decidable (_ ∧ _))

variable {st st' : Store} {log : List Attempt} {now moment : Nat}

/-- It goes on remembering as time passes. -/
theorem Store.Remembers.mono (hr : st.Remembers log now) (hcool : st.SameCooldown st')
    (hle : now ≤ moment) : st'.Remembers log moment := by
  intro a ha hok
  rcases hr a ha hok with hfar | ⟨t, hin, hstart, h1, h2⟩
  · exact .inl (Nat.le_trans hfar hle)
  · exact .inr ⟨t, hcool.1.trans hin, hcool.2.trans hstart, h1, Nat.le_trans h2 hle⟩

/-- Where no cooldown is running, every failed attempt lies back far enough. -/
theorem Store.Remembers.far (hr : st.Remembers log now) (hle : now ≤ moment)
    (hcool : ¬st.cooling (UInt32.ofNat moment)) {a : Attempt} (ha : a ∈ log) (hok : a.ok = false) :
    a.returned + compactRetryMs ≤ moment := by
  rcases hr a ha hok with hfar | ⟨t, hin, hstart, h1, h2⟩
  · exact Nat.le_trans hfar hle
  · have hge : ¬(UInt32.ofNat moment - UInt32.ofNat t).toNat < compactRetryMs := fun hlt =>
      hcool ⟨hin, by rwa [hstart]⟩
    have hsub : (UInt32.ofNat moment - UInt32.ofNat t).toNat ≤ moment - t := by
      rw [UInt32.toNat_sub, UInt32.toNat_ofNat', UInt32.toNat_ofNat']
      omega
    omega

/-- An attempt that keeps its distance from all failed ones. -/
theorem Attempt.pairwise_concat {a : Attempt} (hp : log.Pairwise Attempt.BacksOff)
    (hfar : ∀ b ∈ log, b.ok = false → b.returned + compactRetryMs ≤ a.started) :
    (log ++ [a]).Pairwise Attempt.BacksOff := by
  refine List.pairwise_append.2 ⟨hp, List.pairwise_singleton .., fun b hb c hc => ?_⟩
  obtain rfl := List.mem_singleton.1 hc
  exact hfar b hb

/-- The attempt of the rotation keeps its distance, and is remembered if it fails. -/
theorem Store.Rotated.backsOff {m : Moments} {time : UInt32} {report : Option Bool}
    (hrot : st.Rotated st' (m.clock time) report) (hord : m.Ordered) (hle : now ≤ m.checked)
    (hr : st.Remembers log now) (hp : log.Pairwise Attempt.BacksOff) :
    (log ++ Attempt.reported m.started m.returned report).Pairwise Attempt.BacksOff ∧
      st'.Remembers (log ++ Attempt.reported m.started m.returned report) m.stamped := by
  obtain ⟨h1, h2, h3, -, -⟩ := hord
  cases report with
  | none =>
    rw [Attempt.reported, List.append_nil]
    exact ⟨hp, hr.mono hrot (by omega)⟩
  | some ok =>
    have hfar (a : Attempt) (ha : a ∈ log) (hok : a.ok = false) :
        a.returned + compactRetryMs ≤ m.checked := by
      refine hr.far hle ?_ ha hok
      cases ok with
      | true => exact hrot.1
      | false => exact hrot.1
    rw [Attempt.reported]
    refine ⟨Attempt.pairwise_concat hp fun a ha hok => ?_, fun a ha hok => ?_⟩
    · have ha := hfar a ha hok
      dsimp only
      omega
    rcases List.mem_append.1 ha with ha | ha
    · have ha := hfar a ha hok
      exact .inl (by omega)
    · obtain rfl := List.mem_singleton.1 ha
      obtain rfl : ok = false := hok
      exact .inr ⟨m.stamped, hrot.2.1, hrot.2.2, h3, Nat.le_refl _⟩

/-- So does that of `compact_if_threshold`, where it succeeds and no cooldown is running. -/
theorem Store.Remembers.crossed {m : Moments} {report : Option Bool} (hr : st.Remembers log now)
    (hp : log.Pairwise Attempt.BacksOff) (hcool : st.SameCooldown st') (hle : now ≤ m.restarted)
    (hfin : m.restarted ≤ m.finished)
    (hreport : ∀ ok ∈ report, ok = true ∧ ¬st.cooling (UInt32.ofNat m.restarted)) :
    (log ++ Attempt.reported m.restarted m.finished report).Pairwise Attempt.BacksOff ∧
      st'.Remembers (log ++ Attempt.reported m.restarted m.finished report)
        m.finished := by
  have hmono := hr.mono hcool (Nat.le_trans hle hfin)
  cases report with
  | none =>
    rw [Attempt.reported, List.append_nil]
    exact ⟨hp, hmono⟩
  | some ok =>
    obtain ⟨rfl, hno⟩ := hreport ok rfl
    rw [Attempt.reported]
    refine ⟨Attempt.pairwise_concat hp fun a ha hok => hr.far hle hno ha hok, fun a ha hok => ?_⟩
    rcases List.mem_append.1 ha with ha | ha
    · exact hmono a ha hok
    · obtain rfl := List.mem_singleton.1 ha
      cases hok

/-- **One operation.** -/
theorem Store.step_backsOff {u : TimedUpdate} {s : σ} (hle : now ≤ u.moments.checked)
    (hord : u.moments.Ordered) (hc : st.Cooled h u s) (hr : st.Remembers log now)
    (hp : log.Pairwise Attempt.BacksOff) :
    (log ++ (st.stepLog h u s).2).Pairwise Attempt.BacksOff ∧
      (st.stepLog h u s).1.1.Remembers (log ++ (st.stepLog h u s).2) u.moments.finished := by
  obtain ⟨x, hx⟩ : ∃ x, exec h (st.updateHead u.clock u.update) s = x := ⟨_, rfl⟩
  have hrot : st.Rotated x.1.1.2 u.clock x.1.2 := by
    rw [← hx]
    exact always_exec h rotated_updateHead s
  obtain ⟨hp₁, hr₁⟩ := Store.Rotated.backsOff hrot hord hle hr hp
  obtain ⟨-, -, -, hre, hfin⟩ := hord
  rw [Store.Cooled, hx] at hc
  rw [Store.stepLog, Store.updateLog, exec_bind, hx]
  obtain ⟨⟨⟨goes, st₁⟩, rotated⟩, s₁⟩ := x
  dsimp only at hc hp₁ hr₁ ⊢
  cases goes with
  | false =>
    have hlast : u.moments.attempts (rotated, none)
        = Attempt.reported u.moments.started u.moments.returned rotated :=
      List.append_nil _
    exact hlast ▸ ⟨hp₁, hr₁.mono ⟨rfl, rfl⟩ (by omega)⟩
  | true =>
    obtain ⟨y, hy⟩ : ∃ y, exec h (st₁.compactIfThresholdLog u.clock.time) s₁ = y := ⟨_, rfl⟩
    have hsteady : st₁.Steady y.1.1 := by
      rw [← hy]
      exact always_exec h steady_compactIfThresholdLog s₁
    have hreport : ∀ ok ∈ y.1.2, ok = true ∧ ¬st₁.cooling (UInt32.ofNat u.moments.restarted) := by
      intro ok hok
      rw [← hy, exec_compactIfThresholdLog] at hok
      split at hok
      · next hat =>
        obtain ⟨hno, hsucceeds⟩ := hc rfl hat
        exact ⟨(Option.some.inj hok).symm.trans hsucceeds, hno⟩
      · cases hok
    have hcrossed := hr₁.crossed hp₁ hsteady.cooldown hre hfin hreport
    rw [List.append_assoc] at hcrossed
    rw [if_pos rfl, exec_bind, hy]
    exact hcrossed

/-- **A run backs off** if whenever the dead-record threshold is reached, the cooldown is not running
and the compaction succeeds. -/
theorem Store.run_backsOff {us : List TimedUpdate} {s : σ} (hch : Chronological now us)
    (hc : st.AllCooled h us s) (hr : st.Remembers log now) (hp : log.Pairwise Attempt.BacksOff) :
    (log ++ st.runLog h us s).Pairwise Attempt.BacksOff := by
  induction us generalizing st s log now with
  | nil =>
    rw [Store.runLog, List.append_nil]
    exact hp
  | cons u us ih =>
    obtain ⟨hle, hord, hch⟩ := hch
    obtain ⟨hp', hr'⟩ := Store.step_backsOff h hle hord hc.1 hr hp
    have hrun := ih hch hc.2 hr' hp'
    rw [List.append_assoc] at hrun
    exact hrun

/-- **Failed automatic compactions back off**, in every run of puts and removes from any state, on
any filesystem, whose operations find the cooldown not running and `compact` succeeding whenever they
come to `compact_if_threshold` with the threshold reached. -/
theorem backs_off_of_cooled {us : List TimedUpdate} {s : σ} (hch : Chronological now us)
    (hc : st.AllCooled h us s) : (st.runLog h us s).Pairwise Attempt.BacksOff := by
  have hr : st.Remembers [] now := fun _ ha => nomatch ha
  exact Store.run_backsOff h hch hc hr .nil

end runs

/-! ## Fixed runs

A filesystem that refuses to open `compact.tmp`. -/

/-- A filesystem that does not open this file. -/
def refusing (name : Path) : (c : Call) → FileSystem → c.Reply × FileSystem
  | .open p mode, fs => if p = name then (none, fs) else posix (.open p mode) fs
  | c, fs => posix c fs

/-- A put of one byte under a key of one byte, at one moment. -/
def TimedUpdate.instant (key : UInt8) (moment : Nat) : TimedUpdate where
  update := .put (.at [key]) (.at [1]) 0 0 0
  moments := ⟨moment, moment, moment, moment, moment, moment⟩
  time := 0

/-- A store with two segments, in which every third put rotates. -/
def Store.cramped : Store × FileSystem :=
  let r := exec posix ((Store.new 60 2 .recent).init ['s'] false 0 0) .empty
  (r.1.2, r.2)

/-- The segments are full at the fifth put, and `compact.tmp` cannot be opened: the sixth put, a
minute later but for a millisecond, makes no attempt, and the seventh does. -/
def TimedUpdate.filling : List TimedUpdate :=
  [.instant 1 0, .instant 2 0, .instant 3 0, .instant 4 0, .instant 5 0, .instant 6 59999,
    .instant 7 60000]

theorem backs_off_of_cooled_filling :
    (Store.cramped.1.runLog (refusing Store.cramped.1.tmpName) TimedUpdate.filling
      Store.cramped.2).Pairwise
      Attempt.BacksOff :=
  backs_off_of_cooled _ (show Chronological 0 _ by decide) (by decide +kernel)

/-- Where the same key is put again and again, each put makes an attempt. -/
theorem threshold_ignores_cooldown :
    ¬∀ (h : (c : Call) → FileSystem → c.Reply × FileSystem) (st : Store) (fs : FileSystem)
      (us : List TimedUpdate), Chronological 0 us → (st.runLog h us fs).Pairwise Attempt.BacksOff := by
  intro h
  have hrun := h (refusing Store.cramped.1.tmpName) { Store.cramped.1 with segmentSize := 65536 }
    Store.cramped.2 [.instant 1 0, .instant 1 1000, .instant 1 2000] (by decide)
  exact absurd hrun (by decide +kernel)

end MicroStore
