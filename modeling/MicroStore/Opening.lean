import MicroStore.Reading

/-!
# Closing and opening a store

`close`, `clear` and `init`.  `init` finds the index of a store in one of two ways: it replays the index
file, or, without one, scans the segments and writes the index file anew.  Either way the store it opens
represents the files it finds.

## Files with and without an index

A store that is opened again need not find the files it left.  So the starting points are stated
separately:

* `Files` — segments, and nothing known of an index file.
* `Disk` (from `Layout.lean`) — segments and an index file that leads to their records.

`Log.reloaded` is the log after the index file has been replayed, `Log.rebuilt` the one after a scan, which
`Log.resaved` states for any index.

## The steps of `init`

1.  `recover_if_needed` — nothing to do where the files are settled (`wp_recoverIfNeeded`).
2.  The index is loaded or rebuilt (`wp_loadIndex`, `wp_rebuildIndexFromSegments`).
3.  Entries beyond the limit are evicted, and if there are any the index file is written anew.
4.  The last segment that is there becomes the current one (`wp_resumeLoop`), and the files are opened.

`Opened` is what holds in the end, whichever way the index was found: it says which keys are live, and
which of the invariants of the log survive.

## Clearing

`clear` removes the segments and the index file and starts again in segment 0.  Which records it starts
from does not matter.
-/

set_option autoImplicit false

namespace MicroStore

/-! ## Files without an index -/

/-- The segment files hold the segments of the log, and recovery leaves them alone. -/
structure Files (pre : Path) (count : Nat) (fs : FileSystem) (L : Log) : Prop where
  /-- Different files have different names. -/
  names : NamesOk pre
  /-- Segment numbers fit one byte. -/
  lt : count < 256
  /-- No segment files beyond the ones a store looks for. -/
  segs_lt : ∀ s g, L.segs s = some g → s < spanOf count
  /-- Each segment file holds its segment. -/
  segs : ∀ s < spanOf count, fs.file (storePath pre (.segment s)) = (L.segs s).map Segment.bytes
  /-- Recovery has nothing to do. -/
  journal : Settled pre fs

/-- A disk with an index has segments. -/
theorem Disk.files {pre : Path} {count : Nat} {fs : FileSystem} {L : Log} (h : Disk pre count fs L) :
    Files pre count fs L :=
  { h with segs_lt := h.ok.segs_lt }

/-- The scratch files may change as long as they leave recovery nothing to do. -/
theorem Files.frame {pre : Path} {count : Nat} {fs fs' : FileSystem} {L : Log}
    (h : Files pre count fs L) (hf : Frame (Names pre StoreFile.scratch) fs fs')
    (hj : Settled pre fs') : Files pre count fs' L :=
  { h with
    segs := fun s hs => by
      rw [hf.file (h.names.not_mem (.segment s) (Nat.lt_trans hs (spanOf_lt h.lt)) id)]
      exact h.segs s hs
    journal := hj }

/-- What a scan needs to find every record: no empty key, and nothing that looks like a frame behind
the last one. -/
structure Log.Scannable (L : Log) (n : Nat) : Prop where
  /-- Nothing that follows the records of a segment looks like a frame. -/
  tail : ∀ s < n, ∀ g, L.segs s = some g → scanFrame g.tail = none
  /-- No record stops the scan. -/
  key : ∀ s < n, ∀ g, L.segs s = some g → ∀ r ∈ g.records, r.key ≠ []

/-- The index and the index file are made anew, for the same segments. -/
def Log.resaved (L : Log) (m : Live) (es : List IndexEntry) : Log :=
  { L with
    live := m
    saved := m
    entries := es
    indexTail := [] }

/-- The log a scan of the segments leads to. -/
def Log.rebuilt (L : Log) (count : Nat) (es : List IndexEntry) : Log :=
  L.resaved (replay (L.located count) fun _ => none) es

/-- The index is what the index file leads to. -/
def Log.reloaded (L : Log) : Log := { L with live := L.saved }

namespace Log

variable {L : Log} {count : Nat} {es : List IndexEntry} {m : Live}

/-- The records are where they were. -/
theorem located_resaved (n : Nat) : (L.resaved m es).located n = L.located n :=
  located_congr fun _ _ => rfl

/-- The size depends on the segments alone. -/
theorem size_congr {L' : Log} (h : L'.segs = L.segs) (n : Nat) : L'.size n = L.size n := by
  induction n with
  | zero => rfl
  | succ n ih => rw [size, size, ih, h]

theorem size_resaved (n : Nat) : (L.resaved m es).size n = L.size n :=
  @size_congr L (L.resaved m es) rfl n

theorem size_reloaded (n : Nat) : L.reloaded.size n = L.size n :=
  @size_congr L L.reloaded rfl n

/-- More segments, a larger log. -/
theorem size_mono {m n : Nat} (h : m ≤ n) : L.size m ≤ L.size n := by
  induction h with
  | refl => exact Nat.le_refl _
  | step _ ih => exact Nat.le_trans ih (Nat.le_add_right ..)

/-- A record has at least 25 bytes. -/
theorem length_located_le (n : Nat) : 25 * (L.located n).length ≤ L.size n := by
  induction n with
  | zero => exact Nat.le_refl 0
  | succ n ih =>
    have hseg : 25 * (L.segLocated n).length ≤ ((L.segs n).elim [] Segment.bytes).length := by
      rw [segLocated]
      cases L.segs n with
      | none => exact Nat.le_refl 0
      | some g =>
        have hr := mul_length_le_recordsBytes g.records
        simp only [length_locate, Option.elim_some, Segment.bytes, List.length_append]
        omega
    rw [located, List.length_append, size]
    omega

/-- Small segments together are small. -/
theorem size_le_mul (hlen : ∀ s g, L.segs s = some g → g.bytes.length < 2 ^ 24) (n : Nat) :
    L.size n ≤ n * 2 ^ 24 := by
  induction n with
  | zero => exact Nat.le_refl 0
  | succ n ih =>
    have hseg : ((L.segs n).elim [] Segment.bytes).length ≤ 2 ^ 24 := by
      cases hg : L.segs n with
      | none => exact Nat.zero_le _
      | some g => exact Nat.le_of_lt (hlen n g hg)
    rw [size]
    omega

/-- The log as it is after loading is well formed. -/
theorem reloaded_ok (h : L.Ok count) : L.reloaded.Ok count :=
  { h with
    sub := fun _ _ ht => ht
    entries_le := by
      rw [size_reloaded]
      exact h.entries_le }

/-- What is written to the index file leads to records that are there. -/
theorem resaved_ok (hlt : ∀ s g, L.segs s = some g → s < spanOf count)
    (hm : ∀ k t, m k = some t → L.Has t ∧ t.record.key = k ∧ ¬t.record.deletes ∧ t.off < 2 ^ 24)
    (hes : Index.Shows (es.foldl (fun idx e => e.apply idx) ∅) m)
    (hle : 25 * es.length ≤ 25 * 2 ^ 31 + L.size (spanOf count)) : (L.resaved m es).Ok count where
  segs_lt := hlt
  sub _ _ ht := ht
  has k t ht := (hm k t ht).1
  key k t ht := (hm k t ht).2.1
  put k t ht := (hm k t ht).2.2.1
  off k t ht := (hm k t ht).2.2.2
  entries := hes
  entries_le := by
    rw [size_resaved]
    exact hle

/-- The entries of a rebuilt index lead to records. -/
theorem resaved_sound (hok : (L.resaved m es).Ok count)
    (hes : ∀ e ∈ es, ∃ t, m e.key = some t ∧ e.Leads t) : (L.resaved m es).Sound := by
  intro e he _
  obtain ⟨t, ht, hl⟩ := hes e he
  exact ⟨t, hl, hok.has _ t ht, hok.off _ t ht, hok.put _ t ht⟩

/-- An ordered log can be scanned. -/
theorem Ordered.scannable {cur : Nat} (h : L.Ordered count cur) (n : Nat) : L.Scannable n where
  tail s _ g hg := by
    rw [h.tail s g hg]
    exact scanFrame_nil
  key s _ := h.key s

/-- Loading the index file leaves an ordered log ordered. -/
theorem Ordered.reloaded {cur : Nat} (h : L.Ordered count cur) : L.reloaded.Ordered count cur :=
  h.narrow

/-- So does writing the index file anew from some of the keys. -/
theorem Ordered.resaved {cur : Nat} (h : L.Ordered count cur)
    (hm : ∀ k t, m k = some t → L.saved k = some t) : (L.resaved m es).Ordered count cur :=
  { h with
    scan := fun k t ht => by
      rw [located_resaved]
      exact h.scan k t (hm k t ht) }

/-- Loading gives back a tidy log. -/
theorem Tidy.reloaded {cur : Nat} (h : L.Tidy count cur) : L.reloaded = L := by
  obtain ⟨segs, live, saved, entries, indexTail⟩ := L
  obtain rfl : saved = live := h.saved
  rfl

/-- The log of a store without a record. -/
def empty : Log := ⟨fun _ => none, fun _ => none, fun _ => none, [], []⟩

theorem located_empty (n : Nat) : empty.located n = [] := by
  induction n with
  | zero => rfl
  | succ n ih => rw [located, ih]; rfl

/-- There is nothing to scan in an empty log. -/
theorem empty_scannable (n : Nat) : empty.Scannable n := ⟨nofun, nofun⟩

/-- A log without segments is tidy. -/
theorem rebuilt_empty_tidy (htwo : 2 ≤ count) (cur : Nat) :
    (empty.rebuilt count es).Tidy count cur where
  two_le := htwo
  above _ _ := rfl
  tail := nofun
  key := nofun
  scan _ _ ht := by
    rw [rebuilt, located_resaved]
    exact ht
  ttl := nofun
  saved := rfl
  replay := by
    rw [rebuilt, located_resaved]
    rfl

end Log

section opening

variable {E : Env} {st : Store} {fs : FileSystem} {L : Log}

/-- What is relied upon is known wherever a call is made. -/
theorem Env.wp_rely {β : Type} {c : Call} {f : c.Reply → FsM β} {Q : β → FileSystem → Prop}
    (hinv : E.inv c fs) (h : E.rely fs → E.wp (call c >>= f) Q fs) : E.wp (call c >>= f) Q fs :=
  ⟨hinv, fun r fs' hr => (h hr.1).2 r fs' hr⟩

/-! ## Closing -/

/-- Nothing is held back between operations, so closing writes nothing. -/
theorem wp_closeStore (hE : E.Reads fs) (hbuf : st.writeBuf = []) {Q : Store → FileSystem → Prop}
    (hQ : Q { st with indexFile := none, activeFile := none } fs) : E.wp st.close Q fs := by
  rw [Store.close, flushBuffer_nil hbuf]
  exact Env.wp_pure_bind (wp_closeFile hE (wp_closeFile hE (Env.wp_ret hQ)))

/-! ## The last segment

`init` goes on in the segment with the largest number that is there.  Without any it starts with
segment 0. -/

/-- `init` resumes at the last segment there is. -/
theorem wp_resumeLoop (hE : E.Reads fs) (hf : Files st.basePrefix st.count fs L) {n i r : Nat}
    (hi : i + n = st.count) (hr : r < spanOf st.count)
    (hlast : ∀ s, r < s → s < i → L.segs s = none) {Q : Nat → FileSystem → Prop}
    (hQ : ∀ r, r < spanOf st.count → (∀ s, r < s → s < st.count → L.segs s = none) → Q r fs) :
    E.wp (st.resumeLoop n i r) Q fs := by
  have hspan := le_spanOf st.count
  induction n generalizing i r with
  | zero => exact Env.wp_ret (hQ r hr fun s hs hs' => hlast s hs (by omega))
  | succ n ih =>
    have hfile := hf.segs i (by omega)
    rw [Store.resumeLoop]
    refine wp_openRead hE (fun hdir => ?_) fun j hdir _ => ?_
    · refine ih (by omega) hr fun s hs hs' => ?_
      rcases Nat.lt_succ_iff_lt_or_eq.1 hs' with h | rfl
      · exact hlast s hs h
      · rw [FileSystem.file_eq_none.2 hdir, eq_comm, Option.map_eq_none_iff] at hfile
        exact hfile
    · exact wp_close hE (ih (by omega) (by omega) fun s hs hs' => by omega)

/-- What an opened store has to do with the store whose index was ready, and with its log. -/
structure Opened (st : Store) (L : Log) (st' : Store) (fs' : FileSystem) (L' : Log) : Prop where
  /-- The new store represents a log. -/
  rep : Rep st' fs' L'
  /-- The current segment is open. -/
  active : ∃ g, Active st' fs' L' g
  /-- The configuration is the given one. -/
  config : SameConfig st st'
  /-- The index is the one that was found, less what was evicted. -/
  index : st'.index = st.pruneIndexToMaxRecs.2.index
  /-- A live key was live in what was found. -/
  live : ∀ k t, L'.live k = some t → L.live k = some t
  /-- The index file leads to no more than it did. -/
  saved : ∀ k t, L'.saved k = some t → L.saved k = some t
  /-- What is not evicted stays. -/
  keeps : ∀ k t, L.live k = some t → (st.pruneIndexToMaxRecs.2.indexFind k).isSome →
    L'.live k = some t
  /-- Where the index file ended with an entry it still does. -/
  indexTail : L.indexTail = [] → L'.indexTail = []
  /-- Entries go on leading to records. -/
  sound : L.Sound → L'.Sound
  /-- A scan goes on agreeing with the index file. -/
  ordered : ∀ cur, L.Ordered st.count cur → L'.Ordered st'.count st'.currentSegment
  /-- Without a limit the map of keys and values is the same. -/
  tidy : ∀ cur, st.policyMaxRecs = 0 → L.Tidy st.count cur →
    L'.Tidy st'.count st'.currentSegment ∧ L'.view = L.view

/-- What `init` ends with: the index file is opened, and the last segment. -/
def Store.openFiles (st : Store) : FsM (Bool × Store) := do
  let st ← st.openIndexForAppend
  let resumeSeg ← st.resumeLoop st.count 0 0
  let (_, st) ← st.openSegment resumeSeg
  pure (true, st)

/-- With the index up to date, opening the index file and the last segment makes a store that
represents the files. -/
theorem wp_openStore (hE : E.Fits st.basePrefix st.count) (hd : Disk st.basePrefix st.count fs L)
    (hvalid : st.valid = true) (hcool : 0 < st.count ∨ st.compactInCooldown = false)
    (hbuf : st.writeBuf = []) (hshows : st.index.Shows L.live)
    {Q : Bool × Store → FileSystem → Prop}
    (hQ : ∀ st' fs' r, (∀ s, r < s → s < st.count → L.segs s = none) → st'.currentSegment = r →
      Rep st' fs' (L.opened r) → (∃ g, Active st' fs' (L.opened r) g) → SameConfig st st' →
      st'.index = st.index → Q (true, st') fs') :
    E.wp st.openFiles Q fs := by
  rw [Store.openFiles]
  refine Prog.wp_bind.2 (wp_openIndexForAppend hd.index (hE.ok id id) fun i hi => ?_)
  refine Prog.wp_bind.2 (wp_resumeLoop hE.reads (by exact hd.files) (Nat.zero_add _)
    (Nat.lt_of_lt_of_le Nat.zero_lt_two (two_le_spanOf _))
    (fun s _ hs => absurd hs (Nat.not_lt_zero s)) fun r hr hlast => ?_)
  have hrep : Rep { st with indexFile := some ⟨i, 0, .append⟩, currentSegment := r } fs L :=
    { disk := hd
      valid := hvalid
      cool := hcool
      buf := hbuf
      shows := hshows
      indexFile := ⟨_, rfl, rfl, hi⟩
      cur := hr }
  refine Prog.wp_bind.2 (wp_openSegment (by exact hE) (by exact hrep) fun f off fs' hr' hact => ?_)
  exact Env.wp_ret (hQ _ fs' r hlast rfl (hr'.congr rfl rfl rfl hcool rfl rfl rfl rfl) ⟨_, hact⟩
    ⟨rfl, rfl, rfl, rfl⟩ rfl)

/-! ## Replaying the index file

The supply of rounds suffices, since there are no more entries than `Log.Ok` allows. -/

/-- The segments that are there are small. -/
theorem Files.length_lt {pre : Path} {count : Nat} (hf : Files pre count fs L)
    (hsmall : ∀ s < spanOf count, ∀ bs, fs.file (storePath pre (.segment s)) = some bs →
      bs.length < 2 ^ 24) (s : Nat) (g : Segment) (hg : L.segs s = some g) :
    g.bytes.length < 2 ^ 24 := by
  have hs := hf.segs_lt s g hg
  refine hsmall s hs _ ?_
  rw [hf.segs s hs, hg]
  rfl

/-- The index file is read to its end, or to a torn entry. -/
theorem wp_loadIndex (hE : E.Reads fs) (hd : Disk st.basePrefix st.count fs L)
    (hlen : E.rely fs → ∀ s g, L.segs s = some g → g.bytes.length < 2 ^ 24)
    (htail : readEntry L.indexTail = none) {Q : Bool × Store → FileSystem → Prop}
    (hQ : Q (true, { st with
      index := L.entries.foldl (fun idx e => e.apply idx) st.index }) fs) :
    E.wp st.loadIndex Q fs := by
  rw [Store.loadIndex]
  obtain ⟨i, hi, hdata⟩ := hd.dir_index
  refine wp_openRead hE (fun h => ?_) fun j hj hrely => ?_
  · cases hi.symm.trans h
  obtain rfl : i = j := Option.some.inj (hi.symm.trans hj)
  refine Prog.wp_bind.2 (wp_loadLoop hE _ rfl ?_)
  refine wp_close hE (Env.wp_ret ?_)
  have hrest : Handle.rest ⟨i, 0, .read⟩ fs = entriesBytes L.entries ++ L.indexTail := hdata
  have hle := hd.ok.entries_le
  have hsize := Log.size_le_mul (hlen hrely) (spanOf st.count)
  have hlt := spanOf_lt hd.lt
  have hfuel : L.entries.length < loopFuel := by
    rw [loopFuel]
    omega
  rw [hrest, load_entriesBytes hfuel htail]
  exact hQ

/-- Without an index file there is nothing to load. -/
theorem wp_loadIndex_missing (hE : E.Reads fs) (hnone : fs.dir st.indexName = none)
    {Q : Bool × Store → FileSystem → Prop} (hQ : Q (false, st) fs) : E.wp st.loadIndex Q fs := by
  rw [Store.loadIndex]
  refine wp_openRead hE (fun _ => Env.wp_ret hQ) fun j hj _ => ?_
  cases hnone.symm.trans hj

/-! ## Scanning the segments

Without an index file the records themselves say what is live: the last one of each key, in the order
of the segments. -/

/-- The loop over the segments. -/
theorem wp_rebuildLoop (hE : E.Reads fs) (hf : Files st.basePrefix st.count fs L)
    (hlen : E.rely fs → ∀ s g, L.segs s = some g → g.bytes.length < 2 ^ 24)
    {n seg c : Nat} (hsc : L.Scannable c) (hn : seg + n = c) (hc : c ≤ spanOf st.count) {idx : Index}
    (hidx : idx.Shows (replay (L.located seg) fun _ => none)) {Q : Index → FileSystem → Prop}
    (hQ : ∀ idx : Index, idx.Shows (replay (L.located c) fun _ => none) → Q idx fs) :
    E.wp (st.rebuildLoop n seg idx) Q fs := by
  induction n generalizing seg idx with
  | zero =>
    obtain rfl : seg = c := hn
    exact Env.wp_ret (hQ idx hidx)
  | succ n ih =>
    have hs : seg < c := by omega
    have hfile := hf.segs seg (Nat.lt_of_lt_of_le hs hc)
    rw [Store.rebuildLoop]
    refine wp_openRead hE (fun hdir => ?_) fun i hdir hrely => ?_
    · refine ih (by omega) ?_
      rw [FileSystem.file_eq_none.2 hdir, eq_comm, Option.map_eq_none_iff] at hfile
      rw [Log.located, Log.segLocated, hfile, List.append_nil]
      exact hidx
    rw [FileSystem.file_eq_some hdir, eq_comm, Option.map_eq_some_iff] at hfile
    obtain ⟨g, hg, hbytes⟩ := hfile
    have hdata : fs.data i = recordsBytes g.records ++ g.tail := hbytes.symm
    have hlen : (fs.data i).length < 2 ^ 24 := by
      rw [hdata]
      exact hlen hrely seg g hg
    refine Prog.wp_bind.2 (wp_scanLoop hE _ rfl (Nat.lt_trans hlen (by decide)) rfl
      fun f' => ?_)
    refine wp_close hE (ih (by omega) ?_)
    have hrecs : g.records.length < loopFuel := by
      have hle := length_le_recordsBytes g.records
      rw [hdata, List.length_append] at hlen
      rw [loopFuel]
      omega
    have hshows := @scan_shows (fun key idx => idx.erase key) seg g.records g.tail loopFuel 0 idx
      (replay (L.located seg) fun _ => none) hrecs (hsc.key seg hs g hg) (hsc.tail seg hs g hg)
      (fun _ _ _ _ => rfl) hidx
    rw [Log.located, Log.segLocated, hg, replay_append]
    dsimp only
    rw [hdata]
    exact hshows

/-- With the index file written anew, the files represent the log with that index. -/
theorem Files.resaved {pre : Path} {count : Nat} {fs' : FileSystem} {m : Live} {es : List IndexEntry}
    (hf : Files pre count fs L) (hok : (L.resaved m es).Ok count)
    (hframe : Frame (Names pre (· = .index)) fs fs')
    (hfile : fs'.file (storePath pre .index) = some (entriesBytes es)) :
    Disk pre count fs' (L.resaved m es) where
  names := hf.names
  lt := hf.lt
  ok := hok
  segs s hs := by
    rw [hframe.file (hf.names.not_mem (.segment s) (Nat.lt_trans hs (spanOf_lt hf.lt)) (by simp))]
    exact hf.segs s hs
  index := by
    rw [hfile]
    exact congrArg some (List.append_nil _).symm
  journal := hf.journal.frame hf.names hframe (by simp) (by simp)

/-- The index file is removed and written anew from the index. -/
theorem wp_resaveIndex (hE : E.Fits st.basePrefix st.count) (hf : Files st.basePrefix st.count fs L)
    {m : Live} (hshows : st.index.Shows m)
    (hm : ∀ k t, m k = some t → L.Has t ∧ t.record.key = k ∧ ¬t.record.deletes ∧ t.off < 2 ^ 24)
    (hlen : 25 * st.index.entries.length ≤ 25 * 2 ^ 31 + L.size (spanOf st.count))
    (hinv : ∀ (f : Handle) bs fs', Frame (Names st.basePrefix (· = .index)) fs fs' →
      E.inv (.write f bs) fs')
    {β : Type} {k : Bool → FsM β} {Q : β → FileSystem → Prop}
    (h : ∀ b es fs', Frame (Names st.basePrefix (· = .index)) fs fs' →
      Disk st.basePrefix st.count fs' (L.resaved m es) → (L.resaved m es).Sound →
      es.length = st.index.entries.length → E.wp (k b) Q fs') :
    E.wp (removeFile st.indexName >>= fun _ => st.writeIndexBulk >>= k) Q fs := by
  refine wp_remove (a := .index) trivial (hE.ok id id) fun fs1 b hf1 hnone1 => ?_
  have hkeys : ∀ it ∈ st.items, it.1.length ≤ maxKeyLen := by
    intro it hit
    obtain ⟨t, ht, -⟩ := hshows.key_mem ((st.order.perm _).mem_iff.1 hit)
    rw [← (hm _ t ht).2.1]
    exact t.record.key_le
  refine Prog.wp_bind.2 (wp_writeIndexBulk hf.names hkeys hnone1 hE.mild
    (fun c fs' hf' => ?_) fun fs2 hf2 hfile2 => ?_)
  · cases c with
    | write f bs => exact hinv f bs fs' (hf1.trans hf')
    | «open» | read | seek | tell | flush | close | remove | rename | mkdir => exact hE.inv id
  have hlen' : (bulkEntries st.items hkeys).length = st.index.entries.length := by
    rw [bulkEntries, List.length_pmap]
    exact (st.order.perm _).length_eq
  have hok : (L.resaved m (bulkEntries st.items hkeys)).Ok st.count := by
    refine Log.resaved_ok hf.segs_lt hm (fun key => ?_) (by rw [hlen']; exact hlen)
    rw [foldl_bulkEntries, @foldl_insert_lookup st.items st.index (st.order.perm _)]
    exact hshows key
  exact h true _ fs2 (hf1.trans hf2) (hf.resaved hok (hf1.trans hf2) hfile2)
    (Log.resaved_sound hok fun e he => hshows.bulkEntries_leads (st.order.perm _)
      (fun k t ht => (hm k t ht).2.1) hkeys he) hlen'

/-- What a scan finds is there, within reach of the offsets of the index. -/
theorem Log.has_of_replay {count : Nat} (hlen : ∀ s g, L.segs s = some g → g.bytes.length < 2 ^ 24)
    {k : Key} {t : Located} (h : replay (L.located count) (fun _ => none) k = some t) :
    L.Has t ∧ t.record.key = k ∧ ¬t.record.deletes ∧ t.off < 2 ^ 24 := by
  obtain ⟨h1, h2, h3⟩ := (replay_eq_some h).resolve_left (by simp)
  have hmem := (mem_located.1 h1).2
  refine ⟨has_of_mem_segLocated hmem, h2, h3, ?_⟩
  obtain ⟨g, hg, hmem⟩ := exists_of_mem_segLocated hmem
  obtain ⟨-, before, after, hrs, ho⟩ := mem_locate hmem
  have hb := hlen _ g hg
  rw [Segment.bytes, hrs, recordsBytes_append, List.length_append, List.length_append] at hb
  omega

/-- Without an index file, the segments are scanned and the index file is written anew. -/
theorem wp_rebuildIndexFromSegments (hE : E.Fits st.basePrefix st.count)
    (hf : Files st.basePrefix st.count fs L) (hsc : L.Scannable st.count)
    (hinv : ∀ (f : Handle) bs fs', Frame (Names st.basePrefix (· = .index)) fs fs' →
      E.inv (.write f bs) fs')
    {Q : Store → FileSystem → Prop}
    (hQ : ∀ idx es fs', Frame (Names st.basePrefix (· = .index)) fs fs' →
      Disk st.basePrefix st.count fs' (L.rebuilt st.count es) →
      (L.rebuilt st.count es).Sound → idx.Shows (L.rebuilt st.count es).live →
      es.length = idx.entries.length → Q { st with index := idx, indexFile := none } fs') :
    E.wp st.rebuildIndexFromSegments Q fs := by
  rw [Store.rebuildIndexFromSegments]
  refine Prog.wp_bind.2 (wp_rebuildLoop hE.reads hf (fun h => hf.length_lt (hE.small fs h)) hsc
    (Nat.zero_add _) (le_spanOf _) (by exact Index.Shows.empty)
    fun idx hshows => ?_)
  dsimp only
  refine wp_closeFile hE.reads ?_
  refine Env.wp_rely (hE.inv id) fun hrely => ?_
  have hlen := hf.length_lt (hE.small fs hrely)
  refine wp_resaveIndex (by exact hE) (by exact hf) (by exact hshows)
    (fun k t ht => Log.has_of_replay hlen ht) ?_ (by exact hinv)
    fun _ es fs' hfr hd hsound hes => Env.wp_ret (hQ idx es fs' hfr hd hsound hshows hes)
  have h1 := Log.length_located_le (L := L) st.count
  have h2 := Log.size_mono (L := L) (le_spanOf st.count)
  have h3 := hshows.length_le
  change 25 * idx.entries.length ≤ 25 * 2 ^ 31 + L.size (spanOf st.count)
  omega

/-! ## Opening a store

`init` cut into named parts, so that each can be stated from where it starts: `initFiles` from the
files as they are, `initIndex` once the journal has been dealt with, `initTail` once there is an
index. -/

/-- Recovery with nothing to finish, or without a `compact.tmp`, creates nothing and leaves nothing to
do.  In the first case it touches the scratch files only. -/
theorem wp_recoverIfNeeded (hE : E.Fits st.basePrefix st.count) (hlt : st.count < 256)
    (hset : Settled st.basePrefix fs ∨ fs.dir st.tmpName = none) {Q : Store → FileSystem → Prop}
    (hQ : ∀ fs', (Settled st.basePrefix fs → Frame (Names st.basePrefix StoreFile.scratch) fs fs') →
      Frame (Names st.basePrefix (· ≠ .index)) fs fs' → (∀ p, fs.dir p = none → fs'.dir p = none) →
      Settled st.basePrefix fs' → Q st fs') : E.wp st.recoverIfNeeded Q fs := by
  have hscratch (a : StoreFile) (ha : a.scratch) {fs' fs'' : FileSystem}
      (hf : Frame (Names st.basePrefix (· = a)) fs' fs'') :
      Frame (Names st.basePrefix StoreFile.scratch) fs' fs'' :=
    hf.mono fun p hp => hp.mono (fun b hb => hb ▸ ha) p
  have hfiles {fs' fs'' : FileSystem} (hf : Frame (Names st.basePrefix StoreFile.scratch) fs' fs'') :
      Frame (Names st.basePrefix (· ≠ .index)) fs' fs'' :=
    hf.mono fun p hp => hp.mono (fun b hb => by rintro rfl; exact hb) p
  -- a case that only removes scratch files
  have tidy (fs' : FileSystem) (hf : Frame (Names st.basePrefix StoreFile.scratch) fs fs')
      (habs : ∀ p, fs.dir p = none → fs'.dir p = none) (h : Settled st.basePrefix fs') : Q st fs' :=
    hQ fs' (fun _ => hf) (hfiles hf) habs h
  have habs (fs' : FileSystem) (q : Path) (p : Path) (h : fs'.dir p = none) :
      (fs'.unlink q).dir p = none := by
    rw [FileSystem.dir_unlink]
    split
    · rfl
    · exact h
  rw [Store.recoverIfNeeded]
  refine wp_openRead hE.reads (fun hnone => Env.wp_ret ?_) fun i hi _ => ?_
  · exact tidy fs (Frame.refl _ _) (fun _ h => h) (.of_none hnone)
  refine wp_read hE.reads rfl fun f' _ _ => wp_close hE.reads ?_
  have hfile : fs.file st.journalName = some (fs.data i) := FileSystem.file_eq_some hi
  have hrest : Handle.rest ⟨i, 0, .read⟩ fs = fs.data i := rfl
  rw [hrest]
  dsimp only
  split
  · refine Env.wp_call (hE.inv id) (fun ha => hE.mild _ _ ha) fun _ => Env.wp_ret ?_
    exact tidy _ (hscratch .journal trivial (Frame.unlink (mem_names (by exact trivial) rfl)))
      (habs fs _) (.of_none FileSystem.dir_unlink_self)
  next hvalid =>
  have hnot (bs : Bytes) (hbs : fs.file st.journalName = some bs) :
      ¬(bs.length < Journal.size ∨
        (Journal.decode (bs.take Journal.size)).magic ≠ journalMagic) := by
    obtain rfl : fs.data i = bs := Option.some.inj (hfile.symm.trans hbs)
    rintro (h | h)
    · rw [List.take_of_length_le (Nat.le_of_lt h)] at hvalid
      exact hvalid (.inl (Nat.ne_of_lt h))
    · exact hvalid (.inr h)
  split
  · next hcommit =>
    -- a committed compaction whose `compact.tmp` is gone
    have htmp : fs.dir st.tmpName = none := by
      refine hset.resolve_left fun h => ?_
      have hjournal := h _ hfile
      rw [← or_assoc] at hjournal
      exact (hjournal.resolve_left (hnot _ hfile)).1 hcommit
    refine Prog.wp_bind.2 (wp_finalizeCompaction_missing hlt htmp (fun _ _ => hE.ok id id)
      (fun _ _ _ => hE.ok id id) fun fs1 hf1 habs1 => ?_)
    refine Env.wp_call (hE.inv id) (fun ha => hE.mild _ _ ha) fun _ => Env.wp_ret ?_
    refine hQ _ (fun h => absurd (h _ hfile) ?_) ?_
      (fun p h => habs _ _ p (habs _ _ p (habs1 p h))) (.of_none FileSystem.dir_unlink_self)
    · rw [← or_assoc]
      exact not_or.2 ⟨hnot _ hfile, fun h => h.1 hcommit⟩
    · refine (hf1.mono fun p hp => hp.mono (fun a ha => by rintro rfl; exact ha) p).trans ?_
      exact hfiles ((hscratch .tmp trivial (Frame.unlink (mem_names (by exact trivial) rfl))).trans
        (hscratch .journal trivial (Frame.unlink (mem_names (by exact trivial) rfl))))
  next hstate =>
  split
  · refine Env.wp_call (hE.inv id) (fun ha => hE.mild _ _ ha) fun _ => ?_
    refine Env.wp_call (hE.inv id) (fun ha => hE.mild _ _ ha) fun _ => Env.wp_ret ?_
    exact tidy _ ((hscratch .tmp trivial (Frame.unlink (mem_names (by exact trivial) rfl))).trans
      (hscratch .journal trivial (Frame.unlink (mem_names (by exact trivial) rfl))))
      (fun p h => habs _ _ p (habs _ _ p h)) (.of_none FileSystem.dir_unlink_self)
  next hnext =>
  have htmp : fs.dir st.tmpName = none := by
    refine hset.elim (fun h => ?_) id
    have hjournal := h _ hfile
    rw [← or_assoc] at hjournal
    exact (hjournal.resolve_left (hnot _ hfile)).2.resolve_left hnext
  refine wp_rename_missing htmp (hE.ok id id) (Env.wp_ret ?_)
  refine tidy fs (Frame.refl _ _) (fun _ h => h) fun bs hbs => .inr (.inr ?_)
  obtain rfl : fs.data i = bs := Option.some.inj (hfile.symm.trans hbs)
  exact ⟨hstate, .inr htmp⟩

/-- The store `init` works with, before it looks at the files. -/
def Store.configured (st : Store) (pre : Path) (segmentSize : UInt32) (segmentCount : UInt8) : Store :=
  { st with
    segmentSize := if segmentSize ≠ 0 then segmentSize else st.segmentSize
    segmentCount := if segmentCount ≠ 0 then segmentCount else st.segmentCount
    valid := true
    basePrefix := pre.take (maxFilenameLen - 1) }

/-- The part of `init` that comes after the index. -/
def Store.initTail (st : Store) : FsM (Bool × Store) := do
  let (pruned, st) := st.pruneIndexToMaxRecs
  if 0 < pruned then
    let _ ← removeFile st.indexName
    let _ ← st.writeIndexBulk
    pure ()
  let st ← st.openIndexForAppend
  let resumeSeg ← st.resumeLoop st.count 0 0
  let (_, st) ← st.openSegment resumeSeg
  pure (true, st)

/-- The part of `init` that comes after the recovery. -/
def Store.initIndex (st : Store) : FsM (Bool × Store) := do
  let (loaded, st) ← st.loadIndex
  let st ← if loaded then pure st else st.rebuildIndexFromSegments
  st.initTail

/-- The part of `init` that comes after the configuration. -/
def Store.initFiles (st : Store) (clearOnInit : Bool) : FsM (Bool × Store) := do
  let st ← if clearOnInit then st.clear else pure st
  let st ← st.recoverIfNeeded
  st.initIndex

/-- `init`, with its parts named. -/
theorem Store.init_eq (st : Store) (pre : Path) (clearOnInit : Bool) (segmentSize : UInt32)
    (segmentCount : UInt8) : st.init pre clearOnInit segmentSize segmentCount = (do
      let st := st.configured pre segmentSize segmentCount
      let _ ← if st.basePrefix.getLast? = some '/' then makeDir st.basePrefix.dropLast else pure true
      st.initFiles clearOnInit) := rfl

/-- Creating the directory does nothing to the files. -/
theorem wp_init_configured (hmkdir : ∀ p, E.Ok (.mkdir p) fs) {pre : Path} {clearOnInit : Bool}
    {segmentSize : UInt32} {segmentCount : UInt8} {Q : Bool × Store → FileSystem → Prop}
    (h : E.wp ((st.configured pre segmentSize segmentCount).initFiles clearOnInit) Q fs) :
    E.wp (st.init pre clearOnInit segmentSize segmentCount) Q fs := by
  rw [Store.init_eq]
  dsimp only
  split
  · exact Env.wp_call (hmkdir _).1 (hmkdir _).2 fun _ => h
  · exact Env.wp_pure_bind h

/-- An index with some of the keys is no longer. -/
theorem length_keys_le {idx idx' : Index}
    (h : ∀ k, (idx.lookup k).isSome → (idx'.lookup k).isSome) :
    idx.keys.length ≤ idx'.keys.length := by
  refine (List.subperm_of_subset idx.keys_nodup fun k hk => ?_).length_le
  exact AList.mem_keys.1 (AList.lookup_isSome.1 (h k (AList.lookup_isSome.2 (AList.mem_keys.1 hk))))

/-- A part of an index is not larger. -/
theorem Index.Within.length_le {idx idx' : Index} (h : idx.Within idx') :
    idx.entries.length ≤ idx'.entries.length := by
  have hle := length_keys_le fun k hk => by
    obtain ⟨v, hv⟩ := Option.isSome_iff_exists.1 hk
    exact Option.isSome_iff_exists.2 ⟨v, h k v hv⟩
  simpa [AList.keys, List.keys] using hle

/-- Loading makes no more index entries than there are in the index file. -/
theorem length_foldl_apply_le (es : List IndexEntry) (idx : Index) :
    (es.foldl (fun idx e => e.apply idx) idx).entries.length ≤ idx.entries.length + es.length := by
  induction es generalizing idx with
  | nil => exact Nat.le_refl _
  | cons e es ih =>
    refine Nat.le_trans (ih _) ?_
    have hk (k : Key) : (List.kerase k idx.entries).length ≤ idx.entries.length :=
      (List.kerase_sublist k idx.entries).length_le
    have hstep : (e.apply idx).entries.length ≤ idx.entries.length + 1 := by
      rw [IndexEntry.apply]
      split
      · exact Nat.le_succ_of_le (hk e.key)
      · rw [AList.entries_insert, List.length_cons]
        exact Nat.succ_le_succ (hk e.key)
    rw [List.length_cons]
    dsimp only
    omega

/-- The end of `init`: eviction, after which the index file is written anew, and the opening of the
files. -/
theorem wp_initTail (hE : E.Fits st.basePrefix st.count) (hd : Disk st.basePrefix st.count fs L)
    (hvalid : st.valid = true) (hcool : 0 < st.count ∨ st.compactInCooldown = false)
    (hbuf : st.writeBuf = []) (hshows : st.index.Shows L.live)
    (hlen : st.index.entries.length ≤ L.entries.length)
    (hinv : ∀ (f : Handle) bs fs', Frame (Names st.basePrefix (· = .index)) fs fs' →
      E.inv (.write f bs) fs') {Q : Bool × Store → FileSystem → Prop}
    (hQ : ∀ st' fs' L', Opened st L st' fs' L' → Q (true, st') fs') :
    E.wp st.initTail Q fs := by
  obtain ⟨n, idx, d, hprune, hw, hid⟩ := prune_spec st
  -- the last segment of the store is the last of all
  have hlast {L₁ : Log} {r : Nat} (hok : L₁.Ok st.count)
      (hlast : ∀ s, r < s → s < st.count → L₁.segs s = none) (htwo : 2 ≤ st.count) (s : Nat)
      (hs : r < s) : L₁.segs s = none := by
    cases hg : L₁.segs s with
    | none => rfl
    | some g => exact hg.symm.trans (hlast s hs (spanOf_eq htwo ▸ hok.segs_lt s g hg))
  rw [Store.initTail, hprune]
  dsimp only
  by_cases hn : 0 < n
  · rw [if_pos hn]
    have hm (k : Key) (t : Located) (ht : L.live.within idx k = some t) :
        L.Has t ∧ t.record.key = k ∧ ¬t.record.deletes ∧ t.off < 2 ^ 24 := by
      have ht := hd.ok.sub k t (Live.within_le k t ht)
      exact ⟨hd.ok.has k t ht, hd.ok.key k t ht, hd.ok.put k t ht, hd.ok.off k t ht⟩
    have hle := hw.length_le
    have hok := hd.ok.entries_le
    refine wp_resaveIndex (by exact hE) (by exact hd.files) (by exact hshows.within hw) hm
      (by change 25 * idx.entries.length ≤ 25 * 2 ^ 31 + L.size (spanOf st.count); omega)
      (by exact hinv) fun _ es fs1 _ hd1 hsound _ => Env.wp_pure_bind ?_
    refine wp_openStore (by exact hE) (by exact hd1) (by exact hvalid) (by exact hcool) (by exact hbuf)
      (by exact hshows.within hw) fun st' fs' r hlast' hcur hr hact hc hix => ?_
    have hc' : SameConfig st st' := ⟨hc.pre, hc.segmentCount, hc.ttl, hc.maxRecs⟩
    refine hQ st' fs' _ ⟨hr, hact, hc', by rw [hprune]; exact hix, fun k t ht => Live.within_le k t ht,
      fun k t ht => hd.ok.sub k t (Live.within_le k t ht), fun k t ht hk => ?_, fun _ => rfl,
      fun _ => Log.opened_sound hsound, fun cur ho => ?_, fun cur hmax _ => ?_⟩
    · rw [hprune] at hk
      exact (if_pos hk).trans ht
    · rw [hc'.count, hcur]
      exact Log.opened_ordered (ho.resaved fun k t ht => hd.ok.sub k t (Live.within_le k t ht))
        (hlast hd1.ok hlast' ho.two_le)
    · rw [pruneIndexToMaxRecs_eq (.inl hmax), Prod.mk.injEq] at hprune
      exact absurd hprune.1 (Nat.ne_of_lt hn)
  · have hidx := hid (Nat.eq_zero_of_not_pos hn)
    rw [if_neg hn]
    subst hidx
    refine wp_openStore (by exact hE) (by exact hd) (by exact hvalid) (by exact hcool) (by exact hbuf)
      (by exact hshows) fun st' fs' r hlast' hcur hr hact hc hix => ?_
    have hc' : SameConfig st st' := ⟨hc.pre, hc.segmentCount, hc.ttl, hc.maxRecs⟩
    refine hQ st' fs' _ ⟨hr, hact, hc', by rw [hprune]; exact hix, fun k t ht => ht,
      fun k t ht => ht, fun k t ht _ => ht, id, Log.opened_sound, fun cur ho => ?_, fun cur _ ht => ?_⟩
    · rw [hc'.count, hcur]
      exact Log.opened_ordered ho (hlast hd.ok hlast' ho.two_le)
    · rw [hc'.count, hcur]
      exact ⟨Log.opened_tidy ht (hlast hd.ok hlast' ht.two_le), rfl⟩

/-- **Opening files that have an index** gives a store that represents them, also when the object still
has an index with no more in it than what is loaded. -/
theorem wp_initIndex (hE : E.Fits st.basePrefix st.count) (hd : Disk st.basePrefix st.count fs L)
    (htail : readEntry L.indexTail = none) (hvalid : st.valid = true)
    (hcool : 0 < st.count ∨ st.compactInCooldown = false) (hbuf : st.writeBuf = [])
    (hindex : st.index.Within (L.entries.foldl (fun idx e => e.apply idx) ∅))
    (hinv : ∀ (f : Handle) bs fs', Frame (Names st.basePrefix (· = .index)) fs fs' →
      E.inv (.write f bs) fs') {Q : Bool × Store → FileSystem → Prop}
    (hQ : ∀ st' fs' L', Opened { st with
        index := L.entries.foldl (fun idx e => e.apply idx) st.index } L.reloaded st' fs' L' →
      Q (true, st') fs') :
    E.wp st.initIndex Q fs := by
  rw [Store.initIndex]
  refine Prog.wp_bind.2 (wp_loadIndex hE.reads hd (fun h => hd.files.length_lt (hE.small fs h))
    htail ?_)
  dsimp only
  rw [if_pos rfl]
  have hsame := foldl_apply_lookup_over hindex
  have hlen := @Index.Within.length_le (L.entries.foldl (fun idx e => e.apply idx) st.index)
    (L.entries.foldl (fun idx e => e.apply idx) ∅) fun k v hv => (hsame k).symm.trans hv
  have hlen' : (L.entries.foldl (fun idx e => e.apply idx) (∅ : Index)).entries.length
      ≤ (∅ : Index).entries.length + L.entries.length := length_foldl_apply_le L.entries ∅
  rw [AList.empty_entries, List.length_nil, Nat.zero_add] at hlen'
  refine Env.wp_pure_bind (wp_initTail (by exact hE) (L := L.reloaded) ?_ (by exact hvalid)
    (by exact hcool) (by exact hbuf) (by exact fun k => (hsame k).trans (hd.ok.entries k)) ?_
    (by exact hinv) hQ)
  · exact { hd with ok := Log.reloaded_ok hd.ok }
  · exact Nat.le_trans hlen hlen'

/-- Opening files after recovery that has nothing to bring back. -/
theorem wp_initFiles_over (hE : E.Fits st.basePrefix st.count) (hd : Disk st.basePrefix st.count fs L)
    (htail : readEntry L.indexTail = none) (hvalid : st.valid = true)
    (hcool : 0 < st.count ∨ st.compactInCooldown = false) (hbuf : st.writeBuf = [])
    (hindex : st.index.Within (L.entries.foldl (fun idx e => e.apply idx) ∅))
    (hinv : ∀ (f : Handle) bs fs',
      Frame (Names st.basePrefix fun a => a.scratch ∨ a = .index) fs fs' → E.inv (.write f bs) fs')
    {Q : Bool × Store → FileSystem → Prop}
    (hQ : ∀ st' fs' L', Opened { st with
        index := L.entries.foldl (fun idx e => e.apply idx) st.index } L.reloaded st' fs' L' →
      Q (true, st') fs') :
    E.wp (st.initFiles false) Q fs := by
  rw [Store.initFiles, if_neg Bool.false_ne_true]
  refine Env.wp_pure_bind ?_
  refine Prog.wp_bind.2 (wp_recoverIfNeeded hE hd.lt (.inl hd.journal) fun fs1 hf1 _ _ hset1 => ?_)
  specialize hf1 hd.journal
  exact wp_initIndex hE (hd.frame hf1 hset1) htail hvalid hcool hbuf hindex
    (fun f bs fs2 hf2 => hinv f bs fs2 ((hf1.mono fun p hp => hp.mono (fun _ => .inl) p).trans
      (hf2.mono fun p hp => hp.mono (fun _ => .inr) p))) hQ

/-- Opening the files of a store that has been closed. -/
theorem wp_initFiles (hE : E.Fits st.basePrefix st.count) (hd : Disk st.basePrefix st.count fs L)
    (htail : readEntry L.indexTail = none) (hvalid : st.valid = true)
    (hcool : 0 < st.count ∨ st.compactInCooldown = false) (hbuf : st.writeBuf = [])
    (hindex : st.index = ∅)
    (hinv : ∀ (f : Handle) bs fs',
      Frame (Names st.basePrefix fun a => a.scratch ∨ a = .index) fs fs' → E.inv (.write f bs) fs')
    {Q : Bool × Store → FileSystem → Prop}
    (hQ : ∀ st' fs' L', Opened { st with
        index := L.entries.foldl (fun idx e => e.apply idx) ∅ } L.reloaded st' fs' L' →
      Q (true, st') fs') :
    E.wp (st.initFiles false) Q fs := by
  refine wp_initFiles_over hE hd htail hvalid hcool hbuf (by rw [hindex]; exact fun _ _ hv => by cases hv)
    hinv fun st' fs' L' h => hQ st' fs' L' ?_
  rw [hindex] at h
  exact h

/-- Without an index file the index is rebuilt, and shows what a scan finds. -/
theorem wp_initIndex_rebuilds (hE : E.Fits st.basePrefix st.count)
    (hf : Files st.basePrefix st.count fs L) (hsc : L.Scannable st.count)
    (hnone : fs.dir st.indexName = none)
    (hinv : ∀ (f : Handle) bs fs', Frame (Names st.basePrefix (· = .index)) fs fs' →
      E.inv (.write f bs) fs')
    (hvalid : st.valid = true) (hcool : 0 < st.count ∨ st.compactInCooldown = false)
    (hbuf : st.writeBuf = []) {Q : Bool × Store → FileSystem → Prop}
    (hQ : ∀ idx es st' fs' L', (L.rebuilt st.count es).Sound →
      idx.Shows (L.rebuilt st.count es).live →
      Opened { st with index := idx, indexFile := none } (L.rebuilt st.count es) st' fs' L' →
      Q (true, st') fs') :
    E.wp st.initIndex Q fs := by
  rw [Store.initIndex]
  refine Prog.wp_bind.2 (wp_loadIndex_missing hE.reads hnone ?_)
  dsimp only
  rw [if_neg Bool.false_ne_true]
  refine Prog.wp_bind.2 (wp_rebuildIndexFromSegments hE hf hsc hinv
    fun idx es fs1 hfr hd hsound hshows hes => ?_)
  exact @wp_initTail E { st with index := idx, indexFile := none } fs1 (L.rebuilt st.count es) hE hd
    hvalid hcool hbuf hshows (Nat.le_of_eq hes.symm) (fun f bs fs2 hf2 => hinv f bs fs2 (hfr.trans hf2))
    Q fun st' fs' L' h => hQ idx es st' fs' L' hsound hshows h

/-- What is opened then represents what the scan found. -/
theorem wp_initIndex_missing (hE : E.Fits st.basePrefix st.count)
    (hf : Files st.basePrefix st.count fs L) (hsc : L.Scannable st.count)
    (hnone : fs.dir st.indexName = none)
    (hinv : ∀ (f : Handle) bs fs', Frame (Names st.basePrefix (· = .index)) fs fs' →
      E.inv (.write f bs) fs')
    (hvalid : st.valid = true) (hcool : 0 < st.count ∨ st.compactInCooldown = false)
    (hbuf : st.writeBuf = []) {Q : Bool × Store → FileSystem → Prop}
    (hQ : ∀ idx es st' fs' L', (L.rebuilt st.count es).Sound →
      Opened { st with index := idx, indexFile := none } (L.rebuilt st.count es) st' fs' L' →
      Q (true, st') fs') :
    E.wp st.initIndex Q fs :=
  wp_initIndex_rebuilds hE hf hsc hnone hinv hvalid hcool hbuf
    fun idx es st' fs' L' hsound _ h => hQ idx es st' fs' L' hsound h

/-- **Opening files without an index** gives a store that represents what a scan finds. -/
theorem wp_initFiles_missing (hE : E.Fits st.basePrefix st.count)
    (hf : Files st.basePrefix st.count fs L) (hsc : L.Scannable st.count)
    (hnone : fs.dir st.indexName = none)
    (hinv : ∀ (f : Handle) bs fs',
      Frame (Names st.basePrefix fun a => a.scratch ∨ a = .index) fs fs' → E.inv (.write f bs) fs')
    (hvalid : st.valid = true) (hcool : 0 < st.count ∨ st.compactInCooldown = false)
    (hbuf : st.writeBuf = []) {Q : Bool × Store → FileSystem → Prop}
    (hQ : ∀ idx es st' fs' L', (L.rebuilt st.count es).Sound →
      Opened { st with index := idx, indexFile := none } (L.rebuilt st.count es) st' fs' L' →
      Q (true, st') fs') :
    E.wp (st.initFiles false) Q fs := by
  rw [Store.initFiles, if_neg Bool.false_ne_true]
  refine Env.wp_pure_bind ?_
  refine Prog.wp_bind.2 (wp_recoverIfNeeded hE hf.lt (.inl hf.journal) fun fs1 hf1 _ _ hset1 => ?_)
  specialize hf1 hf.journal
  have hnone1 := (hf1.dir (hf.names.not_mem .index trivial id)).trans hnone
  exact wp_initIndex_missing hE (hf.frame hf1 hset1) hsc hnone1
    (fun f bs fs2 hf2 => hinv f bs fs2 ((hf1.mono fun p hp => hp.mono (fun _ => .inl) p).trans
      (hf2.mono fun p hp => hp.mono (fun _ => .inr) p))) hvalid hcool hbuf hQ

/-! ## Clearing

The segments and the index file are removed one by one, and the files that were open are opened anew.
The journal and `compact.tmp` are not touched, so the files have to be settled before. -/

/-- What `clear` makes of the members. -/
def Store.cleared (st : Store) : Store :=
  { st with
    activeFile := none
    indexFile := none
    index := ∅
    deadSinceCompact := 0
    currentSegment := 0
    currentOffset := 0
    writeBuf := [] }

/-- The files of a store that has been cleared. -/
theorem Files.of_gone {pre : Path} {count : Nat} (hn : NamesOk pre)
    (hlt : count < 256) (hseg : ∀ s < spanOf count, fs.dir (storePath pre (.segment s)) = none)
    (hj : Settled pre fs) : Files pre count fs .empty where
  names := hn
  lt := hlt
  segs_lt := nofun
  segs s hs := by
    rw [FileSystem.file_eq_none.2 (hseg s hs)]
    rfl
  journal := hj

/-- `clear` removes the segments and the index, and reopens what was open. -/
theorem wp_clear_closed (hE : E.Fits st.basePrefix st.count) (hvalid : st.valid = true)
    (hbuf : st.writeBuf = []) (hn : NamesOk st.basePrefix) (hlt : st.count < 256)
    {Q : Store → FileSystem → Prop}
    (hQ : ∀ fs', Frame (Names st.basePrefix fun a => a.below st.count ∨ a = .index) fs fs' →
      (∀ s < st.count, fs'.dir (st.segmentName s) = none) → fs'.dir st.indexName = none →
      E.wp (do
        let st' ← if st.indexFile.isSome then st.cleared.openIndexForAppend else pure st.cleared
        let (_, st') ← if st.activeFile.isSome then st'.openSegment 0 else pure (true, st')
        pure st') Q fs') :
    E.wp st.clear Q fs := by
  rw [Store.clear, if_neg (by rw [hvalid]; decide), flushBuffer_nil hbuf]
  refine Env.wp_pure_bind (wp_closeFile hE.reads (wp_closeFile hE.reads ?_))
  dsimp only
  refine Prog.wp_bind.2 (wp_removeSegments (c := st.count) (Nat.zero_add _) (Nat.le_of_lt hlt)
    (fun s fs' _ => hE.ok id id) fun fs1 hf1 _ hgone => ?_)
  refine wp_remove (a := .index) trivial (hE.ok id id) fun fs2 b hf2 hnone => ?_
  refine hQ fs2 ((hf1.mono fun p hp => hp.mono (fun _ => .inl) p).trans
    (hf2.mono fun p hp => hp.mono (fun _ => .inr) p)) (fun s hs => ?_) hnone
  rw [hf2.dir (hn.not_mem (.segment s) (Nat.lt_trans hs hlt) (by simp))]
  exact hgone s (Nat.zero_le s) hs

/-- The log of a store that has been cleared: segments that should not be there stay. -/
def Log.cleared (L : Log) (count : Nat) : Log where
  segs s := if s < count then none else L.segs s
  live := fun _ => none
  saved := fun _ => none
  entries := []
  indexTail := []

/-- The log after a clear is well formed. -/
theorem Log.cleared_ok {count : Nat} (hlt : ∀ s g, L.segs s = some g → s < spanOf count) :
    (L.cleared count).Ok count where
  segs_lt s g hs := by
    have hs : (if s < count then none else L.segs s) = some g := hs
    split at hs
    · cases hs
    · exact hlt s g hs
  sub := nofun
  has := nofun
  key := nofun
  put := nofun
  off := nofun
  entries := Index.Shows.empty
  entries_le := Nat.le_trans (Nat.zero_le _) (Nat.le_add_right ..)

/-- Clearing an ordered log leaves no segment. -/
theorem Log.Ordered.segs_cleared {count cur : Nat} (h : L.Ordered count cur)
    (hlt : ∀ s g, L.segs s = some g → s < spanOf count) (s : Nat) : (L.cleared count).segs s = none := by
  change (if s < count then none else L.segs s) = none
  split
  · rfl
  · next hs =>
    exact Option.eq_none_iff_forall_ne_some.2 fun g hg => hs (spanOf_eq h.two_le ▸ hlt s g hg)

/-- And ordered. -/
theorem Log.Ordered.cleared {count cur : Nat} (h : L.Ordered count cur)
    (hlt : ∀ s g, L.segs s = some g → s < spanOf count) (cur' : Nat) :
    (L.cleared count).Ordered count cur' where
  two_le := h.two_le
  above s _ := h.segs_cleared hlt s
  tail s g hg := by cases (h.segs_cleared hlt s).symm.trans hg
  key s g hg := by cases (h.segs_cleared hlt s).symm.trans hg
  scan k t ht := by cases ht

/-- **`clear` on an open store** leaves an empty one. -/
theorem wp_clear (hE : E.Fits st.basePrefix st.count) (hvalid : st.valid = true)
    (hcool : 0 < st.count ∨ st.compactInCooldown = false) (hbuf : st.writeBuf = [])
    (hn : NamesOk st.basePrefix) (hlt : st.count < 256) (hset : Settled st.basePrefix fs)
    (hindex : st.indexFile.isSome) (hactive : st.activeFile.isSome)
    (hsegs : ∀ s, st.count ≤ s → s < spanOf st.count →
      fs.file (st.segmentName s) = (L.segs s).map Segment.bytes)
    (hsegs_lt : ∀ s g, L.segs s = some g → s < spanOf st.count) {Q : Store → FileSystem → Prop}
    (hQ : ∀ st' fs' L', Ready st' fs' L' → SameConfig st st' → st'.currentSegment = 0 →
      L' = (L.cleared st.count).opened 0 → Q st' fs') :
    E.wp st.clear Q fs := by
  refine wp_clear_closed hE hvalid hbuf hn hlt fun fs1 hf1 hseg hnone => ?_
  rw [hindex, hactive]
  simp only [if_true]
  rw [Store.openIndexForAppend]
  refine Prog.wp_bind.2 (wp_openKeep (a := .index) trivial rfl rfl (hE.ok id id)
    fun fs2 i hf2 hi hdata _ => ?_)
  rw [FileSystem.file_eq_none.2 (by exact hnone), Option.getD_none] at hdata
  have hset1 : Settled st.basePrefix fs1 :=
    hset.frame hn hf1 (by simp [StoreFile.below]) (by simp [StoreFile.below])
  have hdisk : Disk st.basePrefix st.count fs2 (L.cleared st.count) :=
    { names := hn
      lt := hlt
      ok := Log.cleared_ok hsegs_lt
      segs := fun s hs => by
        have hs256 := Nat.lt_trans hs (spanOf_lt hlt)
        rw [hf2.file (hn.not_mem (.segment s) hs256 (by simp)), Log.cleared]
        dsimp only
        split
        · next hc => rw [FileSystem.file_eq_none.2 (hseg s hc)]; rfl
        · next hc =>
          rw [hf1.file (hn.not_mem (.segment s) hs256 (by simpa [StoreFile.below] using hc))]
          exact hsegs s (Nat.not_lt.1 hc) hs
      index := by
        rw [FileSystem.file_eq_some (by exact hi), hdata]
        rfl
      journal := hset1.frame hn hf2 (by simp) (by simp) }
  have hrep : Rep { st.cleared with indexFile := some ⟨i, 0, .append⟩ } fs2 (L.cleared st.count) :=
    { disk := hdisk
      valid := hvalid
      cool := hcool
      buf := rfl
      shows := Index.Shows.empty
      indexFile := ⟨_, rfl, rfl, hi⟩
      cur := Nat.lt_of_lt_of_le Nat.zero_lt_two (two_le_spanOf _) }
  refine Env.wp_pure_bind ?_
  refine Prog.wp_bind.2 (wp_openSegment (by exact hE) (by exact hrep)
    fun f' off fs3 hr3 hact3 => ?_)
  exact Env.wp_ret (hQ _ fs3 _ ⟨hr3.congr rfl rfl rfl hcool rfl rfl rfl rfl, ⟨_, hact3⟩, rfl⟩
    ⟨rfl, rfl, rfl, rfl⟩ rfl rfl)

end opening

end MicroStore
