import MicroStore.Opening

/-!
# Runs

Everything a caller can do with one store: any sizes and policies, empty keys, manual compactions and
restarts.  `Held` is what stays true between two operations of such a run, as long as none of them
appends to the log between a manual compaction and the next opening of the files (`Operation.Orderly`):
the index leads to the records that were put last (`Held.run`).

## What is here

* `Setup` and `Operation` — what a run is made of: the arguments of the constructor, of the policies and
  of `init`, and the operations with all their arguments.  A restart closes the store and starts another
  one over the same files.
* `Operation.next` — what an operation makes of the map of records that were put last.  Expiry and
  eviction are not in it, so it is an upper bound of what the store may show.
* `Placed` — the invariant: the store represents a log, and what its index file leads to was put last.
  `Held` adds the limit on the number of records.
* `Operation.Follows` — what one operation does to the log, both ways: nothing comes from nowhere, and
  nothing is lost without a reason.
* `Held.wp_perform`, `Held.run` — one operation keeps the invariant, and so does a run.
* `positions_exact` — at the end of such a run every entry of the index is the place of a record of its
  key.

## Limits of the invariant

A run is `SmallRun` if no segment file has reached `2 ^ 24` bytes, where the offsets of the index end,
at any of its calls.  After a manual compaction the active file is not the current segment's any more
(`Operation.detaches`), and what is put then goes to a file without a name.  `positions_astray` is a run
of that kind.
-/

set_option autoImplicit false

namespace MicroStore

/-! ## Operations -/

/-- What a store is made and opened with: the arguments of the constructor and of `init`, and the
policies set in between. -/
structure Setup where
  /-- The prefix that `init` is given. -/
  pre : Path
  /-- The segment size the object is made with. -/
  objectSize : UInt32
  /-- And the number of segments. -/
  objectCount : UInt8
  /-- The segment size `init` is given, which counts unless it is zero. -/
  segmentSize : UInt32
  /-- And the number of segments, likewise. -/
  segmentCount : UInt8
  /-- What `set_ttl_secs` is given. -/
  ttlSecs : UInt32
  /-- What `set_max_recs` is given. -/
  maxRecs : UInt32

/-- The operations of a run. -/
inductive Operation
  | put (clk : Clock) (key data : Buf) (ttl ts : UInt32) (priority : UInt8)
  | get (clk : Clock) (key : Buf)
  | «exists» (clk : Clock) (key : Buf)
  | remove (clk : Clock) (key : Buf) (junkTtl : UInt32) (junkPriority : UInt8)
  | size
  | iterate
  | clear
  | compact (now : UInt32)
  | restart (order : IterationOrder)

namespace Setup

/-- A new object with its policies. -/
def object (su : Setup) (order : IterationOrder) : Store :=
  ((Store.new su.objectSize su.objectCount order).setTtlSecs su.ttlSecs).setMaxRecs su.maxRecs

/-- The prefix as `init` keeps it. -/
def basePrefix (su : Setup) : Path := su.pre.take (maxFilenameLen - 1)

/-- The number of segments after `init`. -/
def segments (su : Setup) : UInt8 :=
  if su.segmentCount ≠ 0 then su.segmentCount else su.objectCount

/-- Open a new object. -/
def start (su : Setup) (order : IterationOrder) : FsM Store := do
  let (_, st) ← (su.object order).init su.pre false su.segmentSize su.segmentCount
  pure st

/-- Perform one operation. -/
def perform (su : Setup) (st : Store) : Operation → FsM Store
  | .put clk key data ttl ts priority => do
    let (_, st) ← st.put clk key data ttl ts priority
    pure st
  | .get clk key => do
    let (_, st) ← st.getValue clk key
    pure st
  | .exists clk key => pure (st.exists clk key).2
  | .remove clk key junkTtl junkPriority => do
    let (_, st) ← st.remove clk key junkTtl junkPriority
    pure st
  | .size => pure st
  | .iterate => do
    let (_, st) ← st.iterate
    pure st
  | .clear => st.clear
  | .compact now => do
    let (_, st) ← st.compact now
    pure st
  | .restart order => do
    let _ ← st.close
    su.start order

/-- No segment file has reached `2 ^ 24` bytes. -/
def Small (su : Setup) (fs : FileSystem) : Prop :=
  ∀ s < spanOf su.segments.toNat, ∀ bs, fs.file (storePath su.basePrefix (.segment s)) = some bs →
    bs.length < 2 ^ 24

instance (su : Setup) (fs : FileSystem) : Decidable (su.Small fs) :=
  decidable_of_iff (∀ s < spanOf su.segments.toNat,
    ∀ bs ∈ fs.file (storePath su.basePrefix (.segment s)), bs.length < 2 ^ 24) Iff.rfl

/-- There are no files under the prefix. -/
def Fresh (su : Setup) (fs : FileSystem) : Prop :=
  ∀ a : StoreFile, a.Valid → fs.dir (storePath su.basePrefix a) = none

/-- The circumstances of a run without faults. -/
def env (su : Setup) : Env := ⟨fun _ _ => False, su.Small, fun _ _ => True⟩

/-- A run without faults. -/
theorem fits (su : Setup) : su.env.Fits su.basePrefix su.segments.toNat where
  pos := .inr fun _ _ h => h
  small _ h := h
  quiet _ _ _ := trivial
  mild _ _ h := h.elim

end Setup

namespace Operation

/-- The key the operation puts. -/
def puts : Operation → Option Key
  | .put _ key _ _ _ _ => some key.bytes
  | .get .. | .exists .. | .remove .. | .size | .iterate | .clear | .compact _ | .restart _ => none

/-- The operation opens the files anew from what is on disk. -/
def restarts : Operation → Bool
  | .restart _ => true
  | .put .. | .get .. | .exists .. | .remove .. | .size | .iterate | .clear | .compact _ => false

/-- The key of a put or a remove is not empty. -/
def Named : Operation → Prop
  | .put _ key _ _ _ _ | .remove _ key _ _ => key.bytes ≠ []
  | .get .. | .exists .. | .size | .iterate | .clear | .compact _ | .restart _ => True

instance : (op : Operation) → Decidable op.Named
  | .put _ key _ _ _ _ | .remove _ key _ _ => inferInstanceAs (Decidable (key.bytes ≠ []))
  | .get .. | .exists .. | .size | .iterate | .clear | .compact _ | .restart _ => .isTrue trivial

/-- What the clock says during the operation. -/
def time : Operation → Option UInt32
  | .put clk _ _ _ _ _ | .get clk _ | .exists clk _ | .remove clk _ _ _ => some clk.time
  | .compact now => some now
  | .size | .iterate | .clear | .restart _ => none

/-- The record of every key that was put last and not removed. -/
def next (m : Key → Option Record) : Operation → Key → Option Record
  | .put _ key data ttl ts priority =>
    if h : key.bytes.length ≤ maxKeyLen ∧ data.bytes.length ≤ maxValueLen then
      Function.update m key.bytes (some (putRecord key data ttl ts priority h.1 h.2))
    else m
  | .remove _ key _ _ =>
    if key.bytes.length ≤ maxKeyLen then Function.update m key.bytes none else m
  | .clear => fun _ => none
  | .get .. | .exists .. | .size | .iterate | .compact _ | .restart _ => m

/-- The active file is no longer that of the current segment: a manual compaction has replaced the
segments, and the files have not been opened since. -/
def detaches (b : Bool) : Operation → Bool
  | .compact _ => true
  | .clear | .restart _ => false
  | .put .. | .get .. | .exists .. | .remove .. | .size | .iterate => b

/-- The operation writes to the active file. -/
def appends : Operation → Bool
  | .put .. | .remove .. => true
  | .get .. | .exists .. | .size | .iterate | .clear | .compact _ | .restart _ => false

/-- Nothing is put or removed between a manual compaction and the next opening of the files. -/
def Orderly : Bool → List Operation → Prop
  | _, [] => True
  | b, op :: rest => (op.appends = true → b = false) ∧ Orderly (op.detaches b) rest

instance decidableOrderly (ops : List Operation) (b : Bool) : Decidable (Orderly b ops) := by
  induction ops generalizing b with
  | nil => exact .isTrue trivial
  | cons op rest ih => exact @instDecidableAnd _ _ _ (ih _)

/-- A run in two parts. -/
theorem orderly_append {b : Bool} {ops ops' : List Operation} : Orderly b (ops ++ ops') ↔
    Orderly b ops ∧ Orderly (ops.foldl detaches b) ops' := by
  induction ops generalizing b with
  | nil => exact (true_and _).symm ▸ Iff.rfl
  | cons op ops ih => exact (and_congr_right fun _ => ih).trans and_assoc.symm

end Operation

/-! ## The invariant -/

/-- Between two operations of a run, every record is in its place. -/
structure Placed (su : Setup) (b : Bool) (m : Key → Option Record) (st : Store) (fs : FileSystem)
    (L : Log) : Prop where
  /-- The store represents a log. -/
  rep : Rep st fs L
  /-- The active file is the end of the current segment, unless a manual compaction has replaced it. -/
  active : b = false → ∃ g, Active st fs L g
  /-- It is open in any case. -/
  opened : st.activeFile.isSome
  /-- The index file ends with an entry, so the next one can be appended. -/
  indexTail : L.indexTail = []
  /-- The index file leads to records that were put last and not removed. -/
  records : ∀ k t, L.saved k = some t → m k = some t.record
  /-- The store is the one that was set up. -/
  pre : st.basePrefix = su.basePrefix
  /-- It has that many segments. -/
  segmentCount : st.segmentCount = su.segments
  /-- That TTL. -/
  ttl : st.policyTtlSecs = su.ttlSecs
  /-- And that limit. -/
  maxRecs : st.policyMaxRecs = su.maxRecs

/-- Between two operations of a run whose policies do not change, the index is also within its limit.
(A limit that is set while the store is open takes effect at the next put.) -/
structure Held (su : Setup) (b : Bool) (m : Key → Option Record) (st : Store) (fs : FileSystem)
    (L : Log) : Prop extends Placed su b m st fs L where
  /-- The index is within its limit. -/
  capped : st.Capped

/-- The operation, which ends in `st'`, does not evict the key. -/
def Operation.Retains (st : Store) (fs : FileSystem) (st' : Store) (k : Key) : Operation → Prop
  | .put clk key data ttl ts priority =>
    let st := (Prog.exec posix (st.rotateSegmentIfNeeded clk data.bytes.length) fs).1.2
    let st := st.indexInsert key.bytes st.currentSegment st.currentOffset ts ttl.toNat priority
    (st.indexFind k).isSome → (st.pruneIndexToMaxRecs.2.indexFind k).isSome
  | .restart _ => (st'.indexFind k).isSome
  | .get .. | .exists .. | .remove .. | .size | .iterate | .clear | .compact _ => True

/-- What one operation does to the log of a store. -/
structure Operation.Follows (op : Operation) (st : Store) (fs : FileSystem) (L : Log) (st' : Store)
    (L' : Log) : Prop where
  /-- A key becomes visible only when it is put, or when it is found in the index file at a restart. -/
  live : ∀ k, (L'.live k).isSome → op.puts = some k ∨ (L.live k).isSome ∨
    op.restarts = true ∧ (L.saved k).isSome
  /-- Every entry of the index file still leads to a record. -/
  sound : L.Sound → L'.Sound
  /-- A scan of the segments still leads to what the index file leads to. -/
  ordered : op.Named → L.Ordered st.count st.currentSegment → L'.Ordered st'.count st'.currentSegment
  /-- An index within its limit stays within it. -/
  capped : st.Capped → st'.Capped
  /-- With two segments and no empty key, a record is lost only when it is replaced, has expired or is
  evicted. -/
  keeps : st.Capped → 2 ≤ st.count → L.live [] = none → op.puts ≠ some [] → ∀ k r,
    op.next (fun k => (L.live k).map Located.record) k = some r →
    (∀ now, op.time = some now → st.expires now r = false) → op.Retains st fs st' k →
    ∃ t, L'.live k = some t ∧ t.record = r

section steps

variable {su : Setup} {b : Bool} {m : Key → Option Record} {st : Store} {fs : FileSystem} {L : Log}

/-- The circumstances are those the operations need. -/
theorem Placed.fits (h : Placed su b m st fs L) : su.env.Fits st.basePrefix st.count := by
  rw [h.pre, Store.count, h.segmentCount]
  exact su.fits

/-- Unless a manual compaction has intervened, the store is ready. -/
theorem Placed.ready (h : Placed su b m st fs L) (hb : b = false) : Ready st fs L :=
  ⟨h.rep, h.active hb, h.indexTail⟩

/-- A key without a record is not live. -/
theorem Placed.live_none (h : Placed su b m st fs L) {k : Key} (hk : m k = none) : L.live k = none := by
  cases hl : L.live k with
  | none => rfl
  | some t => cases hk.symm.trans (h.records k t (h.rep.disk.ok.sub k t hl))

/-- A step of the store that changes neither its files nor its index file. -/
theorem Placed.drops (h : Placed su b m st fs L) {now : UInt32} {idx : Index} (hd : Drops now st L idx) :
    Placed su b m { st with index := idx } fs (L.narrow (L.live.within idx)) where
  rep := h.rep.narrow hd.within
  active hb := (h.active hb).imp fun _ hg => hg.narrow
  opened := h.opened
  indexTail := h.indexTail
  records := h.records
  pre := h.pre
  segmentCount := h.segmentCount
  ttl := h.ttl
  maxRecs := h.maxRecs

/-- It keeps the index within its limit. -/
theorem Drops.capped {now : UInt32} {idx : Index} (hd : Drops now st L idx) (hcap : st.Capped) :
    Store.Capped { st with index := idx } :=
  hcap.imp_right fun hle => Nat.le_trans (length_keys_le fun k hk => by
    obtain ⟨v, hv⟩ := Option.isSome_iff_exists.1 hk
    rw [hd.within k v hv]
    rfl) hle

/-- A read keeps the invariant. -/
theorem Held.drops (h : Held su b m st fs L) {now : UInt32} {idx : Index} (hd : Drops now st L idx) :
    Held su b m { st with index := idx } fs (L.narrow (L.live.within idx)) :=
  ⟨h.toPlaced.drops hd, hd.capped h.capped⟩

/-- What a read does. -/
theorem Operation.Follows.drops {op : Operation} {now : UInt32} {idx : Index}
    (hd : Drops now st L idx) (htime : op.time = some now)
    (hnext : ∀ m, op.next m = m) :
    op.Follows st fs L { st with index := idx } (L.narrow (L.live.within idx)) where
  live k hk := by
    obtain ⟨t, ht⟩ := Option.isSome_iff_exists.1 hk
    exact .inr (.inl (Option.isSome_iff_exists.2 ⟨t, Live.within_le k t ht⟩))
  sound hs := hs
  ordered _ ho := ho.narrow
  capped := hd.capped
  keeps _ _ _ _ k r hr hexp _ := by
    rw [hnext, Option.map_eq_some_iff] at hr
    obtain ⟨t, ht, rfl⟩ := hr
    exact ⟨t, (if_pos (hd.keeps k t ht (hexp now htime))).trans ht, rfl⟩

/-- What an operation does that is refused. -/
theorem Operation.Follows.refl {op : Operation} (hnext : ∀ m, op.next m = m) :
    op.Follows st fs L st L where
  live _ hk := .inr (.inl hk)
  sound := id
  ordered _ ho := ho
  capped := id
  keeps _ _ _ _ k r hr _ _ := by
    rw [hnext, Option.map_eq_some_iff] at hr
    exact hr

/-- Eviction leaves the index alone that is within its limit. -/
theorem Store.Capped.prune (h : st.Capped) : st.pruneIndexToMaxRecs.2 = st := by
  rw [pruneIndexToMaxRecs_eq h]

/-- A step that makes no key visible keeps within the limit. -/
theorem Store.Capped.carry (h : st.Capped) (hs : st.index.Shows L.live) {st' : Store} {L' : Log}
    (hs' : st'.index.Shows L'.live) (hmax : st'.policyMaxRecs = st.policyMaxRecs)
    (hlive : ∀ k, (L'.live k).isSome → (L.live k).isSome) : st'.Capped := by
  rw [Store.Capped, hmax]
  refine h.imp_right (Nat.le_trans (length_keys_le fun k hk => ?_))
  rw [hs' k, Option.isSome_map] at hk
  rw [hs k, Option.isSome_map]
  exact hlive k hk

theorem Carries.live_isSome {st' : Store} {L' : Log} (hc : Carries st L st' L') (k : Key)
    (hk : (L'.live k).isSome) : (L.live k).isSome := by
  obtain ⟨t', ht'⟩ := Option.isSome_iff_exists.1 hk
  obtain ⟨t, ht, -⟩ := hc.live k t' ht'
  exact Option.isSome_iff_exists.2 ⟨t, ht⟩

/-- A put or a remove keeps within the limit if the index it leads to is. -/
theorem Stored.capped {now : UInt32} {r : Record} {idx : Index} {st' : Store} {L' : Log}
    (hs : Stored su.env now st L r idx st' L') (hs' : st'.index.Shows L'.live)
    (hcap : st.policyMaxRecs = 0 ∨ idx.keys.length ≤ st.policyMaxRecs.toNat) : st'.Capped := by
  obtain ⟨st₁, hcarry, -, hc, -⟩ := hs
  rw [Store.Capped, hcarry.maxRecs, hc.maxRecs]
  refine hcap.imp_right (Nat.le_trans (length_keys_le fun k hk => ?_))
  rw [hs' k, Option.isSome_map] at hk
  have hk := hcarry.live_isSome k hk
  change ((L.append st.currentSegment r).live.within idx k).isSome at hk
  rw [Live.within] at hk
  split at hk
  · assumption
  · cases hk

/-- What the index a put or a remove leads to has an entry for is not lost, unless it has expired. -/
theorem Stored.keeps {now : UInt32} {r : Record} {idx : Index} {st' : Store} {L' : Log}
    (hs : Stored su.env now st L r idx st' L')
    (hcap : st.policyMaxRecs = 0 ∨ idx.keys.length ≤ st.policyMaxRecs.toNat)
    (htwo : 2 ≤ st.count) (hnil : L.live [] = none) (hrkey : r.deletes ∨ r.key ≠ []) {k : Key}
    {t : Located} (ht : (L.append st.currentSegment r).live k = some t)
    (hidx : (idx.lookup k).isSome) (hexp : st.expires now t.record = false) :
    ∃ t', L'.live k = some t' ∧ t'.record = t.record := by
  obtain ⟨st₁, -, hkeep, hc, -, -, rfl⟩ := hs
  refine hkeep (fun _ _ h => h) (by rw [hc.count]; exact htwo) ?_ k t ((if_pos hidx).trans ht) ?_ ?_
  · have hnone : (L.append st.currentSegment r).live [] = none := by
      change L.live.apply (L.place st.currentSegment r) [] = none
      by_cases hr : r.key = []
      · have hself : L.live.apply (L.place st.currentSegment r) r.key
            = if r.deletes then none else some (L.place st.currentSegment r) := L.live.apply_self _
        rw [hr, if_pos (hrkey.resolve_right fun h => h hr)] at hself
        exact hself
      · exact (Live.apply_ne (t := L.place st.currentSegment r) (Ne.symm hr)).trans hnil
    cases hl : (L.append st.currentSegment r).live.within st₁.index [] with
    | none => exact hl
    | some t => cases hnone.symm.trans (Live.within_le _ _ hl)
  · rw [← hexp, Store.expires, Store.expires, Store.isTtlExpired, Store.isTtlExpired, hc.ttl]
  · have hcap₁ : st₁.Capped := by
      rw [Store.Capped, hc.maxRecs]
      exact hcap
    rw [hcap₁.prune]
    exact hidx

/-- The store after a put or a remove. -/
theorem Placed.stored (h : Placed su b m st fs L) {st₁ : Store} {L₁ : Log}
    (hc : Carries st L st₁ L₁) {now : UInt32} {r : Record} {idx : Index}
    {st' : Store} {fs' : FileSystem} {L' : Log} (hr : Ready st' fs' L')
    (hs : Stored su.env now st₁ L₁ r idx st' L') :
    Placed su false (Function.update m r.key (if r.deletes then none else some r)) st' fs' L' := by
  obtain ⟨g, hact⟩ := hr.active
  obtain ⟨f, hf, -⟩ := hact.file
  refine ⟨hr.rep, fun _ => hr.active, by rw [hf]; rfl, hr.indexTail, fun k t' ht' => ?_,
    (hs.config.pre.trans hc.pre).trans h.pre,
    (hs.config.segmentCount.trans hc.segmentCount).trans h.segmentCount,
    (hs.config.ttl.trans hc.ttl).trans h.ttl, (hs.config.maxRecs.trans hc.maxRecs).trans h.maxRecs⟩
  rcases hs.saved ht' with ⟨rfl, he, hd⟩ | ⟨hk, t, ht, he⟩
  · rw [Function.update_self, if_neg hd, he]
  · obtain ⟨t₀, ht₀, he₀⟩ := hc.saved k t ht
    rw [Function.update_of_ne hk, h.records k t₀ ht₀, he₀, he]

theorem Stored.live_isSome {st₁ : Store} {L₁ : Log} (hc : Carries st L st₁ L₁) {now : UInt32}
    {r : Record} {idx : Index} {st' : Store} {L' : Log} (hs : Stored su.env now st₁ L₁ r idx st' L')
    {k : Key} (hk : (L'.live k).isSome) : (¬r.deletes ∧ k = r.key) ∨ (L.live k).isSome := by
  obtain ⟨t', ht'⟩ := Option.isSome_iff_exists.1 hk
  rcases hs.live ht' with ⟨rfl, -, hd⟩ | ⟨-, t, ht, -⟩
  · exact .inl ⟨hd, rfl⟩
  · exact .inr (hc.live_isSome k (by rw [ht]; rfl))

theorem prune_maxRecs (st : Store) : st.pruneIndexToMaxRecs.2.policyMaxRecs = st.policyMaxRecs := by
  obtain ⟨n, idx, d, hprune, -⟩ := prune_spec st
  rw [hprune]

theorem Store.expires_congr {st' : Store} (h : st'.policyTtlSecs = st.policyTtlSecs) (now : UInt32)
    (r : Record) : st'.expires now r = st.expires now r := by
  rw [Store.expires, Store.expires, Store.isTtlExpired, Store.isTtlExpired, h]

/-- Opening a store evicts what is too much. -/
theorem Opened.capped {st' : Store} {fs' : FileSystem} {L' : Log} (h : Opened st L st' fs' L') :
    st'.Capped := by
  have hcap := prune_capped st
  rw [Store.Capped, prune_maxRecs] at hcap
  rw [Store.Capped, h.config.maxRecs, Store.indexSize, h.index]
  exact hcap

/-- A store that has been opened is held. -/
theorem Opened.held {st' : Store} {fs' : FileSystem} {L' : Log} (h : Opened st L st' fs' L')
    (htail : L.indexTail = []) (hrec : ∀ k t, L.saved k = some t → m k = some t.record)
    (hpre : st.basePrefix = su.basePrefix) (hcount : st.segmentCount = su.segments)
    (httl : st.policyTtlSecs = su.ttlSecs) (hmax : st.policyMaxRecs = su.maxRecs) :
    Held su false m st' fs' L' := by
  obtain ⟨g, hact⟩ := h.active
  obtain ⟨f, hf, -⟩ := hact.file
  exact ⟨⟨h.rep, fun _ => h.active, by rw [hf]; rfl, h.indexTail htail,
    fun k t ht => hrec k t (h.saved k t ht), h.config.pre.trans hpre, h.config.segmentCount.trans hcount,
    h.config.ttl.trans httl, h.config.maxRecs.trans hmax⟩, h.capped⟩

/-- A new object opened on files. -/
theorem Setup.wp_start (su : Setup) (order : IterationOrder) {Q : Store → FileSystem → Prop}
    (h : ∀ st : Store, st.basePrefix = su.basePrefix → st.segmentCount = su.segments →
      st.policyTtlSecs = su.ttlSecs → st.policyMaxRecs = su.maxRecs → st.valid = true →
      st.compactInCooldown = false → st.writeBuf = [] → st.index = ∅ → st.order = order →
      su.env.wp (st.initFiles false) (fun x fs' => Q x.2 fs') fs) :
    su.env.wp (su.start order) Q fs := by
  rw [Setup.start]
  exact Env.wp_seq (wp_init_configured (fun _ => ⟨trivial, id⟩) (h _ rfl rfl rfl rfl rfl rfl rfl rfl rfl))
    fun x fs' hx => Env.wp_ret hx

/-- The first start, without any files. -/
theorem Setup.wp_start_fresh (su : Setup) (hn : NamesOk su.basePrefix) (order : IterationOrder)
    (hfresh : su.Fresh fs) :
    su.env.wp (su.start order)
      (fun st fs' => ∃ L, Held su false (fun _ => none) st fs' L ∧ L.Sound) fs := by
  refine su.wp_start order fun st hpre hcount httl hmax hvalid hcool hbuf _ _ => ?_
  have hE : su.env.Fits st.basePrefix st.count := by
    rw [hpre, Store.count, hcount]
    exact su.fits
  have hlt : st.count < 256 := st.segmentCount.toNat_lt
  have hnone (a : StoreFile) (ha : a.Valid) : fs.dir (storePath st.basePrefix a) = none := by
    rw [hpre]
    exact hfresh a ha
  have hf : Files st.basePrefix st.count fs .empty :=
    Files.of_gone (hpre ▸ hn) hlt
      (fun s hs => hnone (.segment s) (Nat.lt_trans hs (spanOf_lt hlt))) (.of_none (hnone .journal trivial))
  refine wp_initFiles_missing hE hf (Log.empty_scannable _) (hnone .index trivial)
    (fun _ _ _ _ => trivial) hvalid (.inr hcool) hbuf fun idx es st' fs' L' hsound hop => ⟨L', ?_⟩
  refine ⟨hop.held rfl (fun k t ht => ?_) hpre hcount httl hmax, hop.sound hsound⟩
  have hsaved : (Log.empty.rebuilt st.count es).saved k = none := by
    change replay (Log.empty.located st.count) (fun _ => none) k = none
    rw [Log.located_empty]
    rfl
  cases hsaved.symm.trans ht

/-- A new object goes on with what the index file leads to. -/
theorem Setup.wp_start_disk (su : Setup) (order : IterationOrder)
    (hd : Disk su.basePrefix su.segments.toNat fs L) (htail : L.indexTail = [])
    (hrec : ∀ k t, L.saved k = some t → m k = some t.record) :
    su.env.wp (su.start order) (fun st' fs' => ∃ L' st₁, Opened st₁ L.reloaded st' fs' L' ∧
      st₁.segmentCount = su.segments ∧ Held su false m st' fs' L') fs := by
  refine su.wp_start order fun st' hpre hcount httl hmax hvalid hcool hbuf hindex _ => ?_
  have hE : su.env.Fits st'.basePrefix st'.count := by
    rw [hpre, Store.count, hcount]
    exact su.fits
  have hd : Disk st'.basePrefix st'.count fs L := by
    rw [hpre, Store.count, hcount]
    exact hd
  refine wp_initFiles hE hd (by rw [htail]; exact readEntry_nil) hvalid (.inr hcool) hbuf
    hindex (fun _ _ _ _ => trivial) fun st'' fs' L' hop => ⟨L', _, hop, hcount, ?_⟩
  exact hop.held htail hrec hpre hcount httl hmax

/-- A restart goes on with what the index file leads to. -/
theorem Placed.wp_restart (h : Placed su b m st fs L) (order : IterationOrder) :
    su.env.wp (su.start order) (fun st' fs' => ∃ L', Held su false m st' fs' L' ∧
      (Operation.restart order).Follows st fs L st' L') fs := by
  have hd : Disk su.basePrefix su.segments.toNat fs L := by
    rw [← h.pre, ← h.segmentCount]
    exact h.rep.disk
  refine Prog.wp_mono (su.wp_start_disk order hd h.indexTail h.records) ?_
  rintro st'' fs' ⟨L', st₁, hop, hcount, hheld⟩
  refine ⟨L', hheld, fun k hk => ?_, hop.sound, fun _ ho => hop.ordered st.currentSegment ?_,
    fun _ => hheld.capped, ?_⟩
  · obtain ⟨t, ht⟩ := Option.isSome_iff_exists.1 hk
    exact .inr (.inr ⟨rfl, Option.isSome_iff_exists.2 ⟨t, hop.live k t ht⟩⟩)
  · rw [Store.count, hcount, ← h.segmentCount]
    exact ho.reloaded
  · intro _ _ _ _ k r hr _ hret
    obtain ⟨t, ht, rfl⟩ := Option.map_eq_some_iff.1 hr
    have hlive : (st''.index.lookup k).isSome := hret
    rw [hop.rep.shows k, Option.isSome_map] at hlive
    obtain ⟨t', ht'⟩ := Option.isSome_iff_exists.1 hlive
    have hsaved : L.saved k = some t' := hop.live k t' ht'
    obtain rfl := Option.some.inj (hsaved.symm.trans (h.rep.disk.ok.sub k t ht))
    exact ⟨t', ht', rfl⟩

/-- A put beyond the limits fails. -/
theorem Rep.put_beyond (hr : Rep st fs L) {clk : Clock} {key data : Buf} {ttl ts : UInt32}
    {priority : UInt8} (hlim : ¬(key.bytes.length ≤ maxKeyLen ∧ data.bytes.length ≤ maxValueLen)) :
    st.put clk key data ttl ts priority = pure (false, st) := by
  rw [Store.put, if_neg (by rw [hr.valid]; decide)]
  rcases not_and_or.1 hlim with h | h
  · rw [if_pos (Nat.not_le.1 h)]
  · rw [if_pos (Nat.not_le.1 h)]
    exact ite_self _

/-- So does the removal of a key that is too long. -/
theorem Rep.remove_beyond (hr : Rep st fs L) {clk : Clock} {key : Buf} {junkTtl : UInt32}
    {junkPriority : UInt8} (hkey : ¬key.bytes.length ≤ maxKeyLen) :
    st.remove clk key junkTtl junkPriority = pure (false, st) := by
  rw [Store.remove, if_neg (by rw [hr.valid]; decide), if_pos (Nat.not_le.1 hkey)]

/-- A put within the limits. -/
theorem Placed.wp_put (h : Placed su false m st fs L) {clk : Clock} {key data : Buf} {ttl ts : UInt32}
    {priority : UInt8} (hlim : key.bytes.length ≤ maxKeyLen ∧ data.bytes.length ≤ maxValueLen) :
    su.env.wp (st.put clk key data ttl ts priority) (fun x fs' => x.1 = true ∧
      ∃ L', Placed su false ((Operation.put clk key data ttl ts priority).next m) x.2 fs' L' ∧
        (Operation.put clk key data ttl ts priority).Follows st fs L x.2 L') fs := by
  have hE := h.fits
  have hr := h.rep
  obtain ⟨r, hrec⟩ : ∃ r, putRecord key data ttl ts priority hlim.1 hlim.2 = r := ⟨_, rfl⟩
  have hdel : ¬r.deletes := by
    rw [← hrec]
    change ¬(0 : UInt8) &&& flagDelete ≠ 0
    decide
  have hkey : r.key = key.bytes := by rw [← hrec]; rfl
  have hnext (m : Key → Option Record) : (Operation.put clk key data ttl ts priority).next m
      = Function.update m key.bytes (some r) := by
    rw [Operation.next, dif_pos hlim, hrec]
  have hrotate : su.env.wp (st.rotateSegmentIfNeeded clk data.bytes.length) _ fs :=
    Env.wp_exec (wp_rotate_ready hE (h.ready rfl)) fun _ _ h => h
  refine Store.wp_put (L := L) hE hr.valid hlim.1 hlim.2 hrec
    (R := fun st₁ _ L₁ => Keeps clk.time st L L₁ ∧
      st₁ = (Prog.exec posix (st.rotateSegmentIfNeeded clk data.bytes.length) fs).1.2)
    (Prog.wp_mono hrotate fun x fs₁ hx => ?_)
    (fun _ _ _ _ _ _ _ _ _ _ _ _ _ => trivial)
    (fun _ _ _ _ _ _ _ _ _ _ _ _ _ _ _ => trivial)
    fun st₁ fs₁ L₁ st' fs' L' hr₁ hc₁ hrot hr' hsound hs => ?_
  · obtain ⟨⟨L₁, h1, h2, h3⟩, hexec⟩ := hx
    exact ⟨L₁, h1, h2, h3 fun _ _ h => h, congrArg (fun y => y.1.2) hexec⟩
  have hcap : st₁.policyMaxRecs = 0 ∨ (st₁.putIndex r).keys.length ≤ st₁.policyMaxRecs.toNat := by
    have hcap := prune_capped (st₁.indexInsert r.key st₁.currentSegment st₁.currentOffset
      r.hdr.timestamp r.hdr.ttl.toNat r.hdr.priority)
    rw [Store.Capped, prune_maxRecs] at hcap
    exact hcap
  have hplaced := h.stored hc₁ hr' hs
  rw [if_neg hdel, hkey, ← hnext] at hplaced
  refine ⟨rfl, L', hplaced, fun k hk => ?_, hsound ∘ hc₁.sound,
    fun hne ho => hs.ordered hr₁ (hc₁.ordered ho) (by rw [hkey]; exact hne),
    fun _ => hs.capped hr'.rep.shows hcap, ?_⟩
  · exact (Stored.live_isSome hc₁ hs hk).imp (fun h => congrArg some (h.2.trans hkey).symm) .inl
  intro hcapped htwo hnil hne k r' hr' hexp hret
  have hexp := hexp clk.time rfl
  have hne : r.key ≠ [] := fun he => hne (congrArg some (hkey.symm.trans he))
  have hnil₁ : L₁.live [] = none := by
    cases hl : L₁.live [] with
    | none => rfl
    | some t =>
      have := hc₁.live_isSome [] (by rw [hl]; rfl)
      rw [hnil] at this
      cases this
  have hret : ((AList.insert key.bytes (indexValue st₁.currentSegment st₁.currentOffset ts ttl.toNat
      priority) st₁.index).lookup k).isSome → ((st₁.putIndex r).lookup k).isSome := by
    rw [hrot.2, ← hrec]
    exact hret
  rw [hnext] at hr'
  by_cases hk : k = key.bytes
  · subst hk
    rw [Function.update_self, Option.some.injEq] at hr'
    subst hr'
    have hself : L₁.live.apply (L₁.place st₁.currentSegment r) r.key
        = if r.deletes then none else some (L₁.place st₁.currentSegment r) := L₁.live.apply_self _
    rw [if_neg hdel] at hself
    refine hs.keeps hcap (by rw [hc₁.count]; exact htwo) hnil₁ (.inr hne)
      (t := L₁.place st₁.currentSegment r) (hkey ▸ hself) (hret ?_) ?_
    · rw [AList.lookup_insert]
      rfl
    · exact (Store.expires_congr hc₁.ttl clk.time r).trans hexp
  · rw [Function.update_of_ne hk, Option.map_eq_some_iff] at hr'
    obtain ⟨t, ht, rfl⟩ := hr'
    obtain ⟨t₁, ht₁, he₁⟩ := hrot.1 htwo hnil k t ht hexp (by
      rw [hcapped.prune, Store.indexFind, hr.shows k, ht]
      rfl)
    rw [← he₁]
    refine hs.keeps hcap (by rw [hc₁.count]; exact htwo) hnil₁ (.inr hne) ?_ (hret ?_) ?_
    · exact (Live.apply_ne (t := L₁.place st₁.currentSegment r) (hkey ▸ hk)).trans ht₁
    · rw [AList.lookup_insert_ne hk, hr₁.rep.shows k, ht₁]
      rfl
    · rw [he₁]
      exact (Store.expires_congr hc₁.ttl clk.time t.record).trans hexp

/-- A removal within the limits. -/
theorem Placed.wp_remove (h : Placed su false m st fs L) {clk : Clock} {key : Buf} {junkTtl : UInt32}
    {junkPriority : UInt8} (hlim : key.bytes.length ≤ maxKeyLen) :
    su.env.wp (st.remove clk key junkTtl junkPriority) (fun x fs' =>
      ∃ L', Placed su false ((Operation.remove clk key junkTtl junkPriority).next m) x.2 fs' L' ∧
        (Operation.remove clk key junkTtl junkPriority).Follows st fs L x.2 L') fs := by
  obtain ⟨r, hrec⟩ : ∃ r, removeRecord key junkTtl junkPriority hlim = r := ⟨_, rfl⟩
  have hdel : r.deletes := by
    rw [← hrec]
    change flagDelete &&& flagDelete ≠ 0
    decide
  have hkey : r.key = key.bytes := by rw [← hrec]; rfl
  have hnext (m : Key → Option Record) : (Operation.remove clk key junkTtl junkPriority).next m
      = Function.update m key.bytes none := by
    rw [Operation.next, if_pos hlim]
  refine Store.wp_remove h.fits (h.ready rfl) hlim hrec
    (fun _ _ _ _ _ _ _ _ _ _ _ _ _ => trivial)
    (fun _ _ _ _ _ _ _ _ _ _ _ _ _ _ _ => trivial) fun st' fs' L' hr' hsound hs => ?_
  have hcap (hcapped : st.Capped) :
      st.policyMaxRecs = 0 ∨ (st.index.erase r.key).keys.length ≤ st.policyMaxRecs.toNat := by
    refine hcapped.imp_right (Nat.le_trans (length_keys_le fun k hk => ?_))
    by_cases he : k = r.key
    · rw [he, AList.lookup_erase] at hk
      cases hk
    · rwa [AList.lookup_erase_ne he] at hk
  have hplaced := h.stored (.refl st L) hr' hs
  rw [if_pos hdel, hkey, ← hnext] at hplaced
  refine ⟨L', hplaced, fun k hk => ?_, hsound,
    fun hne ho => hs.ordered (h.ready rfl) ho (by rw [hkey]; exact hne),
    fun hcapped => hs.capped hr'.rep.shows (hcap hcapped), ?_⟩
  · exact (Stored.live_isSome (.refl st L) hs hk).elim (fun h => absurd hdel h.1) (.inr ∘ .inl)
  intro hcapped htwo hnil _ k r' hr' hexp _
  rw [hnext] at hr'
  by_cases hk : k = key.bytes
  · rw [hk, Function.update_self] at hr'
    cases hr'
  · rw [Function.update_of_ne hk, Option.map_eq_some_iff] at hr'
    obtain ⟨t, ht, rfl⟩ := hr'
    refine hs.keeps (hcap hcapped) htwo hnil (.inl hdel) ?_ ?_ (hexp clk.time rfl)
    · exact (Live.apply_ne (t := L.place st.currentSegment r) (hkey ▸ hk)).trans ht
    · rw [AList.lookup_erase_ne (hkey ▸ hk), h.rep.shows k, ht]
      rfl

/-- Both keep the index within its limit. -/
theorem Held.wp_put (h : Held su false m st fs L) {clk : Clock} {key data : Buf} {ttl ts : UInt32}
    {priority : UInt8} (hlim : key.bytes.length ≤ maxKeyLen ∧ data.bytes.length ≤ maxValueLen) :
    su.env.wp (st.put clk key data ttl ts priority) (fun x fs' => x.1 = true ∧
      ∃ L', Held su false ((Operation.put clk key data ttl ts priority).next m) x.2 fs' L' ∧
        (Operation.put clk key data ttl ts priority).Follows st fs L x.2 L') fs := by
  refine Prog.wp_mono (h.toPlaced.wp_put hlim) ?_
  rintro x fs' ⟨hok, L', hplaced, hf⟩
  exact ⟨hok, L', ⟨hplaced, hf.capped h.capped⟩, hf⟩

/-- The same of a remove. -/
theorem Held.wp_remove (h : Held su false m st fs L) {clk : Clock} {key : Buf} {junkTtl : UInt32}
    {junkPriority : UInt8} (hlim : key.bytes.length ≤ maxKeyLen) :
    su.env.wp (st.remove clk key junkTtl junkPriority) (fun x fs' =>
      ∃ L', Held su false ((Operation.remove clk key junkTtl junkPriority).next m) x.2 fs' L' ∧
        (Operation.remove clk key junkTtl junkPriority).Follows st fs L x.2 L') fs := by
  refine Prog.wp_mono (h.toPlaced.wp_remove hlim) ?_
  rintro x fs' ⟨L', hplaced, hf⟩
  exact ⟨L', ⟨hplaced, hf.capped h.capped⟩, hf⟩

/-- **One step of a run** keeps every record in its place. -/
theorem Placed.wp_perform (h : Placed su b m st fs L) {op : Operation}
    (hb : op.appends = true → b = false) :
    su.env.wp (su.perform st op) (fun st' fs' => ∃ L', Placed su (op.detaches b) (op.next m) st' fs' L' ∧
      op.Follows st fs L st' L') fs := by
  have hE := h.fits
  have hr := h.rep
  cases op with
  | put clk key data ttl ts priority =>
    obtain rfl : b = false := hb rfl
    rw [Setup.perform]
    by_cases hlim : key.bytes.length ≤ maxKeyLen ∧ data.bytes.length ≤ maxValueLen
    · exact Env.wp_seq (h.wp_put hlim) fun x fs' hx => Env.wp_ret hx.2
    · have hnext (m : Key → Option Record) :
          (Operation.put clk key data ttl ts priority).next m = m := dif_neg hlim
      rw [hr.put_beyond hlim]
      exact Env.wp_ret ⟨L, (hnext m).symm ▸ h, .refl hnext⟩
  | get clk key =>
    rw [Setup.perform]
    by_cases hkey : key.bytes.length ≤ maxKeyLen
    · refine Prog.wp_bind.2 (wp_getValue hE.reads hr hkey fun idx hd => ?_)
      exact Env.wp_ret ⟨_, h.drops hd, .drops hd rfl fun _ => rfl⟩
    · rw [getValue_of_long hr.valid hkey]
      exact Env.wp_ret ⟨L, h, .refl fun _ => rfl⟩
  | «exists» clk key =>
    rw [Setup.perform]
    by_cases hkey : key.bytes.length ≤ maxKeyLen
    · obtain ⟨idx, hd, he⟩ := exists_eq hr clk hkey
      rw [he]
      exact Env.wp_ret ⟨_, h.drops hd, .drops hd rfl fun _ => rfl⟩
    · rw [exists_of_long hr.valid hkey]
      exact Env.wp_ret ⟨L, h, .refl fun _ => rfl⟩
  | remove clk key junkTtl junkPriority =>
    obtain rfl : b = false := hb rfl
    rw [Setup.perform]
    by_cases hlim : key.bytes.length ≤ maxKeyLen
    · exact Env.wp_seq (h.wp_remove hlim) fun x fs' hx => Env.wp_ret hx
    · have hnext (m : Key → Option Record) :
          (Operation.remove clk key junkTtl junkPriority).next m = m := if_neg hlim
      rw [hr.remove_beyond hlim]
      exact Env.wp_ret ⟨L, (hnext m).symm ▸ h, .refl hnext⟩
  | size =>
    rw [Setup.perform]
    exact Env.wp_ret ⟨L, h, .refl fun _ => rfl⟩
  | iterate =>
    rw [Setup.perform]
    refine Prog.wp_bind.2 (wp_iterate hE.reads hr fun es _ _ _ => ?_)
    exact Env.wp_ret ⟨L, h, .refl fun _ => rfl⟩
  | clear =>
    rw [Setup.perform]
    obtain ⟨x, hx, -⟩ := hr.indexFile
    have hlt : st.count < 256 := st.segmentCount.toNat_lt
    refine wp_clear hE hr.valid hr.cool hr.buf hr.disk.names hlt hr.disk.journal (by rw [hx]; rfl)
      h.opened (fun s _ hs => hr.disk.segs s hs) hr.disk.ok.segs_lt
      fun st' fs' L' hr' hc hcur hL => ⟨L', ?_, fun k hk => ?_, fun _ => ?_, fun _ ho => ?_,
        fun hcap => hcap.carry hr.shows hr'.rep.shows hc.maxRecs fun k hk => ?_, ?_⟩
    · obtain ⟨g, hact⟩ := hr'.active
      obtain ⟨f, hf, -⟩ := hact.file
      refine ⟨hr'.rep, fun _ => hr'.active, by rw [hf]; rfl, hr'.indexTail, fun k t ht => ?_,
        hc.pre.trans h.pre, hc.segmentCount.trans h.segmentCount, hc.ttl.trans h.ttl,
        hc.maxRecs.trans h.maxRecs⟩
      rw [hL] at ht
      cases ht
    · rw [hL] at hk
      cases hk
    · rw [hL]
      exact Log.opened_sound nofun
    · rw [hL, hc.count, hcur]
      exact Log.opened_ordered (ho.cleared hr.disk.ok.segs_lt 0) fun s _ => ho.segs_cleared hr.disk.ok.segs_lt s
    · rw [hL] at hk
      cases hk
    · intro _ _ _ _ k r hr'
      cases hr'
  | compact now =>
    rw [Setup.perform]
    obtain ⟨n, idx₁, d, hprune, hw, hid⟩ := prune_spec st
    obtain ⟨rs, hrs⟩ : ∃ rs, Store.image { st with index := idx₁, deadSinceCompact := d }
        (L.narrow (L.live.within idx₁)) now st.count = rs := ⟨_, rfl⟩
    refine Prog.wp_bind.2 (Rep.wp_compact (c := st.currentSegment) hr hE hprune hw hid hrs
      (fun idx x es fs1 hr1 hes => ?_) fun hno => absurd (fun _ _ h => h) hno)
    obtain ⟨hc, hkeep⟩ := @Rep.carries_compacted st fs L hr now idx₁ (by rw [hprune]) hw { st with
        index := idx₁
        deadSinceCompact := d } rfl rfl rs hrs es hes fs1 hr1.disk { st with
        currentSegment := 1 } ⟨rfl, rfl, rfl, rfl⟩ rfl
    refine Env.wp_ret ⟨_, ⟨hr1, nofun, h.opened, rfl, fun k t' ht' => ?_, h.pre, h.segmentCount, h.ttl,
      h.maxRecs⟩, fun k hk => .inr (.inl (hc.live_isSome k hk)),
      fun _ => Log.compacted_sound hes hr1.disk.ok, fun _ ho => ?_,
      fun hcap => hcap.carry hr.shows hr1.shows rfl hc.live_isSome, ?_⟩
    · obtain ⟨t, ht, he⟩ := hc.saved k t' ht'
      rw [← he]
      exact h.records k t ht
    · rw [← hrs]
      exact Log.Ordered.compacted ho (hr.disk.narrow Live.within_le) (hr.shows.within hw) 0
    · intro hcap htwo hnil _ k r hr' hexp _
      obtain ⟨t, ht, rfl⟩ := Option.map_eq_some_iff.1 hr'
      refine hkeep htwo hnil k t ht (hexp now rfl) ?_
      rw [hcap.prune, Store.indexFind, hr.shows k, ht]
      rfl
  | restart order =>
    rw [Setup.perform]
    refine Prog.wp_bind.2 (wp_closeStore hE.reads hr.buf (Prog.wp_mono (h.wp_restart order) ?_))
    rintro st' fs' ⟨L', hheld, hf⟩
    exact ⟨L', hheld.toPlaced, hf⟩

/-- **One step of a run** keeps the invariant. -/
theorem Held.wp_perform (h : Held su b m st fs L) {op : Operation}
    (hb : op.appends = true → b = false) :
    su.env.wp (su.perform st op) (fun st' fs' => ∃ L', Held su (op.detaches b) (op.next m) st' fs' L' ∧
      op.Follows st fs L st' L') fs := by
  refine Prog.wp_mono (h.toPlaced.wp_perform hb) ?_
  rintro st' fs' ⟨L', hplaced, hf⟩
  exact ⟨L', ⟨hplaced, hf.capped h.capped⟩, hf⟩

end steps

/-! ## Runs -/

namespace Setup

/-- The state operations lead to. -/
def run (su : Setup) : List Operation → Store × FileSystem → Store × FileSystem
  | [], s => s
  | op :: ops, s => su.run ops (Prog.exec posix (su.perform s.1 op) s.2)

/-- At no call of the run has a segment file reached `2 ^ 24` bytes. -/
def SmallRun (su : Setup) : List Operation → Store × FileSystem → Prop
  | [], _ => True
  | op :: ops, s => (∀ x ∈ Prog.trace posix (su.perform s.1 op) s.2, su.Small x.2) ∧
    su.SmallRun ops (Prog.exec posix (su.perform s.1 op) s.2)

instance decidableSmallRun (su : Setup) (ops : List Operation) (s : Store × FileSystem) :
    Decidable (su.SmallRun ops s) := by
  induction ops generalizing s with
  | nil => exact .isTrue trivial
  | cons op ops ih => exact @instDecidableAnd _ _ _ (ih _)

/-- A new object opened where there are no files, and no segment file reached `2 ^ 24` bytes. -/
structure Starts (su : Setup) (order : IterationOrder) (fs : FileSystem) : Prop where
  /-- The names of the files are different. -/
  names : NamesOk su.basePrefix
  /-- None of them exists. -/
  fresh : su.Fresh fs
  /-- The start itself makes no segment too long. -/
  small : ∀ x ∈ Prog.trace posix (su.start order) fs, su.Small x.2

/-- The state the operations lead to from a new object. -/
def reach (su : Setup) (order : IterationOrder) (fs : FileSystem) (ops : List Operation) :
    Store × FileSystem :=
  su.run ops (Prog.exec posix (su.start order) fs)

/-- A run in two parts. -/
theorem run_append (su : Setup) (ops ops' : List Operation) (s : Store × FileSystem) :
    su.run (ops ++ ops') s = su.run ops' (su.run ops s) := by
  induction ops generalizing s with
  | nil => rfl
  | cons op ops ih => exact ih _

/-- The condition on its segments, too. -/
theorem smallRun_append {su : Setup} {ops ops' : List Operation} {s : Store × FileSystem} :
    su.SmallRun (ops ++ ops') s ↔ su.SmallRun ops s ∧ su.SmallRun ops' (su.run ops s) := by
  induction ops generalizing s with
  | nil => exact (true_and _).symm ▸ Iff.rfl
  | cons op ops ih => exact (and_congr_right fun _ => ih).trans and_assoc.symm

end Setup

section runs

variable {su : Setup} {b : Bool} {m : Key → Option Record} {st : Store} {fs : FileSystem} {L : Log}

/-- The records that were put last. -/
def Operation.records (ops : List Operation) : Key → Option Record :=
  ops.foldl Operation.next fun _ => none

theorem Setup.Starts.held {order : IterationOrder} (h : su.Starts order fs) :
    ∃ L, Held su false (fun _ => none) (Prog.exec posix (su.start order) fs).1
      (Prog.exec posix (su.start order) fs).2 L ∧ L.Sound :=
  Env.exec_of_wp (su.wp_start_fresh h.names order h.fresh) h.small

/-- **A run keeps the invariant.** -/
theorem Held.run {ops : List Operation} (h : Held su b m st fs L)
    (hsmall : su.SmallRun ops (st, fs)) (hord : Operation.Orderly b ops) :
    ∃ L', Held su (ops.foldl Operation.detaches b) (ops.foldl Operation.next m)
      (su.run ops (st, fs)).1 (su.run ops (st, fs)).2 L' ∧ (L.Sound → L'.Sound) := by
  induction ops generalizing b m st fs L with
  | nil => exact ⟨L, h, id⟩
  | cons op ops ih =>
    obtain ⟨L₁, h₁, hf⟩ := Env.exec_of_wp (h.wp_perform hord.1) hsmall.1
    obtain ⟨L', h', hs⟩ := ih h₁ hsmall.2 hord.2
    exact ⟨L', h', hs ∘ hf.sound⟩

/-- The invariant holds of every state a run reaches. -/
theorem Setup.Starts.reach {order : IterationOrder} (h : su.Starts order fs) {ops : List Operation}
    (hsmall : su.SmallRun ops (Prog.exec posix (su.start order) fs))
    (hord : Operation.Orderly false ops) :
    ∃ L, Held su (ops.foldl Operation.detaches false) (Operation.records ops)
      (su.reach order fs ops).1 (su.reach order fs ops).2 L ∧ L.Sound := by
  obtain ⟨L₀, h₀, hs₀⟩ := h.held
  obtain ⟨L, h, hs⟩ := h₀.run hsmall hord
  exact ⟨L, h, hs hs₀⟩

end runs

/-! ## Positions

An index entry consists of a segment number and an offset.  That they are exact is the reason a
lookup finds the right record, as `get` does not compare keys. -/

/-- The index leads to the place where the record of each key that was put last begins. -/
def PositionsExact (m : Key → Option Record) (s : Store × FileSystem) : Prop :=
  ∀ k v, s.1.indexFind k = some v → ∃ r file, m k = some r ∧
    s.2.file (s.1.segmentName v.segment.toNat) = some file ∧ r.bytes <+: file.drop v.offset.toNat

/-- **Index positions are exact** in every run in which no segment file reaches `2 ^ 24` bytes and
nothing is put or removed between a manual compaction and the next opening of the files. -/
theorem positions_exact (su : Setup) (order : IterationOrder) (fs : FileSystem)
    (hstart : su.Starts order fs) (ops : List Operation)
    (hsmall : su.SmallRun ops (Prog.exec posix (su.start order) fs))
    (hord : Operation.Orderly false ops) :
    PositionsExact (Operation.records ops) (su.reach order fs ops) := by
  intro k v hv
  obtain ⟨L, h, -⟩ := hstart.reach hsmall hord
  have hshows := h.rep.shows k
  rw [Store.indexFind] at hv
  rw [hv, eq_comm, Option.map_eq_some_iff] at hshows
  obtain ⟨t, ht, rfl⟩ := hshows
  obtain ⟨i, hi, hpre⟩ := h.rep.fetch ht
  exact ⟨t.record, _, h.records k t (h.rep.disk.ok.sub k t ht), FileSystem.file_eq_some hi, hpre⟩

/-- Four segments under the prefix `a`. -/
def sampleSetup : Setup := ⟨['a'], 65536, 8, 65536, 4, 0, 0⟩

theorem sampleSetup_starts : sampleSetup.Starts .recent .empty where
  names := namesOk_of_length_le (by decide)
  fresh _ _ := rfl
  small := by decide +kernel

/-- Two puts with a restart in between. -/
def sampleOperations : List Operation :=
  [.put ⟨0, 0, 0⟩ (.at [97]) (.at [1]) 0 0 0, .restart .recent,
    .put ⟨0, 0, 0⟩ (.at [98]) (.at [2]) 0 0 0]

theorem positions_exact_sample : PositionsExact (Operation.records sampleOperations)
    (sampleSetup.reach .recent .empty sampleOperations) :=
  positions_exact sampleSetup .recent .empty sampleSetup_starts sampleOperations
    (by decide +kernel) (by decide)

/-- A put behind a manual compaction goes to the segment file the compaction has removed, so its index
entry leads nowhere. -/
theorem positions_astray :
    let ops : List Operation := [.put ⟨0, 0, 0⟩ (.at [97]) (.at [1]) 0 0 0, .compact 0,
      .put ⟨0, 0, 0⟩ (.at [98]) (.at [2]) 0 0 0]
    ¬PositionsExact (Operation.records ops) (sampleSetup.reach .recent .empty ops) := by
  intro ops h
  have hv : ((sampleSetup.reach .recent .empty ops).1.indexFind [98]).map
      (fun v => (v.segment, v.offset.toNat)) = some (0, 27) := by decide +kernel
  obtain ⟨v, hv, he⟩ := Option.map_eq_some_iff.1 hv
  obtain ⟨r, file, -, hfile, hpre⟩ := h [98] v hv
  obtain ⟨hseg, hoff⟩ := Prod.mk.inj he
  have hlen : ((sampleSetup.reach .recent .empty ops).2.file
      ((sampleSetup.reach .recent .empty ops).1.segmentName 0)).map List.length = some 27 := by
    decide +kernel
  rw [hseg] at hfile
  have hfile' : (sampleSetup.reach .recent .empty ops).2.file
      ((sampleSetup.reach .recent .empty ops).1.segmentName 0) = some file := hfile
  rw [hfile', Option.map_some, Option.some.injEq] at hlen
  rw [hoff, List.drop_of_length_le (Nat.le_of_eq hlen)] at hpre
  have hnil := List.prefix_nil.1 hpre
  have := congrArg List.length hnil
  rw [Record.length_bytes, Record.size, List.length_nil, headerSize] at this
  omega

end MicroStore
