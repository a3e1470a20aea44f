import MicroStore.Opening
import Mathlib.Data.Finmap

/-!
# Sessions

What a store is for: a finite map from keys to values that outlives the process.  A session is a
sequence of operations on one prefix, restarts included, and `session_refines` says that it answers as
the map does, wherever rotations and compactions fall.

## What is here

* `Command`, `Answer`, `Config` — the operations of a session, their answers and what is fixed
  throughout it.  Puts have no TTL, and the store no policies; runs with those are in `Running.lean`.
* `Config.session` — a session as one program, from the construction of the store on.
* `Config.Ok`, `Config.Small`, `Config.Fresh` — the conditions: a prefix of at most 48 characters and
  two segments or more, no segment of `2 ^ 24` bytes, no files under the prefix.
* `Contents`, `Command.next`, `Command.Answered` — the abstract side, a finite map: what an operation
  makes of it, and which answers it allows.
* `Holds` — the invariant: the store represents a tidy log with this map.
* `Holds.wp_perform`, `wp_session` — one operation, and a session.
* `session_refines` — the result.
* `session_views_agree` — in the state after a session, the index in memory, the one loaded from the
  index file and the one rebuilt from the segments are the same.

The map says nothing of segments, of the index file or of compactions; it is the statement of purpose
that the model is held against.
-/

set_option autoImplicit false

namespace MicroStore

/-! ## Commands

A restart closes the store and starts another one on the same files, with an order of iteration of
its own. -/

/-- The operations of a session. -/
inductive Command
  | put (clk : Clock) (key data : Buf) (ts : UInt32) (priority : UInt8)
  | get (clk : Clock) (key : Buf)
  | «exists» (clk : Clock) (key : Buf)
  | remove (clk : Clock) (key : Buf) (junkTtl : UInt32) (junkPriority : UInt8)
  | clear
  | size
  | iterate
  | restart (order : IterationOrder)

/-- What an operation answers. -/
inductive Answer
  | none
  | bool (b : Bool)
  | value (v : Option Value)
  | number (n : Nat)
  | entries (es : List Entry)
  deriving DecidableEq

/-- The arguments of `init`. -/
structure Config where
  /-- The prefix. -/
  pre : Path
  /-- The size of a segment. -/
  segmentSize : UInt32
  /-- The number of segments. -/
  segmentCount : UInt8

namespace Config

/-- Open a fresh object. -/
def start (cfg : Config) (order : IterationOrder) : FsM Store := do
  let (_, st) ← (Store.new 65536 8 order).init cfg.pre false cfg.segmentSize cfg.segmentCount
  pure st

/-- Perform one operation. -/
def perform (cfg : Config) (st : Store) : Command → FsM (Answer × Store)
  | .put clk key data ts priority => do
    let (b, st) ← st.put clk key data 0 ts priority
    pure (.bool b, st)
  | .get clk key => do
    let (v, st) ← st.getValue clk key
    pure (.value v, st)
  | .exists clk key => pure (.bool (st.exists clk key).1, (st.exists clk key).2)
  | .remove clk key junkTtl junkPriority => do
    let (b, st) ← st.remove clk key junkTtl junkPriority
    pure (.bool b, st)
  | .clear => do
    let st ← st.clear
    pure (.none, st)
  | .size => pure (.number st.size, st)
  | .iterate => do
    let (es, st) ← st.iterate
    pure (.entries es, st)
  | .restart order => do
    let _ ← st.close
    let st ← cfg.start order
    pure (.none, st)

/-- Perform operations one after the other. -/
def performAll (cfg : Config) (st : Store) : List Command → FsM (List Answer × Store)
  | [] => pure ([], st)
  | c :: rest => do
    let (a, st) ← cfg.perform st c
    let (as, st) ← cfg.performAll st rest
    pure (a :: as, st)

/-- A whole session. -/
def session (cfg : Config) (order : IterationOrder) (commands : List Command) :
    FsM (List Answer × Store) := do
  let st ← cfg.start order
  cfg.performAll st commands

/-- The arguments are within the bounds the program documents. -/
structure Ok (cfg : Config) : Prop where
  /-- No name is cut. -/
  pre : cfg.pre.length ≤ 48
  /-- A segment has a size. -/
  segmentSize : 1 ≤ cfg.segmentSize
  /-- There is a segment to go on in. -/
  segmentCount : 2 ≤ cfg.segmentCount

/-- No segment file has reached `2 ^ 24` bytes. -/
def Small (cfg : Config) (fs : FileSystem) : Prop :=
  ∀ s < cfg.segmentCount.toNat, ∀ bs, fs.file (storePath cfg.pre (.segment s)) = some bs →
    bs.length < 2 ^ 24

instance (cfg : Config) (fs : FileSystem) : Decidable (cfg.Small fs) :=
  decidable_of_iff (∀ s < cfg.segmentCount.toNat,
    ∀ bs ∈ fs.file (storePath cfg.pre (.segment s)), bs.length < 2 ^ 24) Iff.rfl

/-- There are no files under the prefix. -/
def Fresh (cfg : Config) (fs : FileSystem) : Prop :=
  ∀ a : StoreFile, a.Valid → fs.dir (storePath cfg.pre a) = none

end Config

/-- The key and the value of an operation are within the limits. -/
def Command.WithinLimits : Command → Prop
  | .put _ key data _ _ =>
    key.bytes ≠ [] ∧ key.bytes.length ≤ maxKeyLen ∧ data.bytes.length ≤ maxValueLen
  | .get _ key | .exists _ key | .remove _ key _ _ => key.bytes ≠ [] ∧ key.bytes.length ≤ maxKeyLen
  | .clear | .size | .iterate | .restart _ => True

/-! ## The map

Keys of 1 to 64 bytes and values of up to 1024 are within the limits; what is not is refused and
changes nothing. -/

/-- What a store stands for. -/
abbrev Contents := Finmap fun _ : Key => Value

/-- What an operation makes of the map. -/
def Command.next (m : Contents) : Command → Contents
  | .put _ key data _ _ => m.insert key.bytes data.bytes
  | .remove _ key _ _ => m.erase key.bytes
  | .clear => ∅
  | .get .. | .exists .. | .size | .iterate | .restart _ => m

/-- What the map lets an operation answer. -/
def Command.Answered (m : Contents) : Command → Answer → Prop
  | .put .., a | .remove .., a => a = .bool true
  | .get _ key, a => a = .value (m.lookup key.bytes)
  | .exists _ key, a => a = .bool (m.lookup key.bytes).isSome
  | .clear, a | .restart _, a => a = .none
  | .size, a => a = .number m.keys.card
  | .iterate, a => ∃ es : List Entry, a = .entries es ∧ (es.map Entry.key).Nodup ∧
    ∀ k v, (∃ e ∈ es, e.key = k ∧ e.value = v) ↔ m.lookup k = some v

/-- The answers are those of the map, operation after operation. -/
def AnsweredAll : Contents → List Command → List Answer → Prop
  | _, [], as => as = []
  | m, c :: rest, as =>
    ∃ a as', as = a :: as' ∧ c.Answered m a ∧ AnsweredAll (c.next m) rest as'

/-- What the operations together make of the map. -/
def Contents.after (m : Contents) (commands : List Command) : Contents :=
  commands.foldl Command.next m

/-! ## The invariant of a session

`Holds` joins the invariant of the store with the map of the session. -/

/-- Between two operations the store represents a tidy log with the contents of the map. -/
structure Holds (cfg : Config) (m : Contents) (st : Store) (fs : FileSystem) (L : Log) : Prop where
  /-- The store represents a log, and its active file is open. -/
  ready : Ready st fs L
  /-- Nothing expires. -/
  ttl : st.policyTtlSecs = 0
  /-- Nothing is evicted. -/
  maxRecs : st.policyMaxRecs = 0
  /-- A scan, the index file and the index in memory agree. -/
  tidy : L.Tidy st.count st.currentSegment
  /-- The log has the map of the session. -/
  view : ∀ k, L.view k = m.lookup k
  /-- The prefix is that of the session. -/
  pre : st.basePrefix = cfg.pre
  /-- So is the number of segments. -/
  segmentCount : st.segmentCount = cfg.segmentCount

/-- The circumstances of a fault-free session. -/
def Config.env (cfg : Config) : Env := ⟨fun _ _ => False, cfg.Small, fun _ _ => True⟩

/-- There are two segments. -/
theorem Config.two_le {cfg : Config} (hcfg : cfg.Ok) : 2 ≤ cfg.segmentCount.toNat :=
  UInt8.le_iff_toNat_le.1 hcfg.segmentCount

/-- The circumstances are those the operations need. -/
theorem Config.fits {cfg : Config} (hcfg : cfg.Ok) :
    cfg.env.Fits cfg.pre cfg.segmentCount.toNat where
  pos := .inl (Nat.zero_lt_of_lt (Config.two_le hcfg))
  small fs h := by
    rw [spanOf_eq (Config.two_le hcfg)]
    exact h
  quiet _ _ _ := trivial
  mild _ _ h := h.elim

section steps

variable {cfg : Config} {m : Contents} {st : Store} {fs : FileSystem} {L : Log} {E : Env}

/-- The same for a store of the session. -/
theorem Config.fits_store (hcfg : cfg.Ok) (hpre : st.basePrefix = cfg.pre)
    (hcount : st.segmentCount = cfg.segmentCount) : cfg.env.Fits st.basePrefix st.count := by
  rw [hpre, Store.count, hcount]
  exact Config.fits hcfg

/-- And the number of its segments. -/
theorem Config.two_le_count (hcfg : cfg.Ok) (hcount : st.segmentCount = cfg.segmentCount) :
    2 ≤ st.count := by
  rw [Store.count, hcount]
  exact Config.two_le hcfg

/-- The circumstances are those the operations need. -/
theorem Holds.fits (h : Holds cfg m st fs L) (hcfg : cfg.Ok) :
    cfg.env.Fits st.basePrefix st.count :=
  Config.fits_store hcfg h.pre h.segmentCount

/-- A step that is no put or remove. -/
theorem Holds.of_carries (h : Holds cfg m st fs L) {st' : Store} {fs' : FileSystem} {L' : Log}
    (hr : Ready st' fs' L') (hc : Carries st L st' L') : Holds cfg m st' fs' L' where
  ready := hr
  ttl := hc.ttl.trans h.ttl
  maxRecs := hc.maxRecs.trans h.maxRecs
  tidy := (hc.tidy h.ttl h.maxRecs h.tidy).1
  view k := by rw [(hc.tidy h.ttl h.maxRecs h.tidy).2, h.view]
  pre := hc.pre.trans h.pre
  segmentCount := hc.segmentCount.trans h.segmentCount

/-- A put or a remove. -/
theorem Holds.of_stored (h : Holds cfg m st fs L) {now : UInt32} {r : Record} {idx : Index}
    {st' : Store} {fs' : FileSystem} {L' : Log} {m' : Contents} (hr : Ready st' fs' L')
    (hs : Stored cfg.env now st L r idx st' L')
    (hidx : idx.Shows (L.append st.currentSegment r).live) (hkey : r.key ≠ [])
    (hrttl : ¬r.deletes → r.hdr.ttl = 0)
    (hm : ∀ k, Function.update m.lookup r.key (if r.deletes then none else some r.value) k
      = m'.lookup k) : Holds cfg m' st' fs' L' := by
  obtain ⟨ht, hv⟩ := hs.tidy h.ready h.ttl h.maxRecs h.tidy hidx hkey hrttl
  exact
    { ready := hr
      ttl := hs.config.ttl.trans h.ttl
      maxRecs := hs.config.maxRecs.trans h.maxRecs
      tidy := ht
      view := fun k => by rw [hv, ← hm, funext h.view]
      pre := hs.config.pre.trans h.pre
      segmentCount := hs.config.segmentCount.trans h.segmentCount }

/-- A store opened on a tidy log holds its contents. -/
theorem Opened.holds {st' : Store} {fs' : FileSystem} {L' : Log} (h : Opened st L st' fs' L')
    (httl : st.policyTtlSecs = 0) (hmax : st.policyMaxRecs = 0) {cur : Nat}
    (ht : L.Tidy st.count cur) (htail : L.indexTail = []) (hview : ∀ k, L.view k = m.lookup k)
    (hpre : st.basePrefix = cfg.pre) (hcount : st.segmentCount = cfg.segmentCount) :
    Holds cfg m st' fs' L' where
  ready := ⟨h.rep, h.active, h.indexTail htail⟩
  ttl := h.config.ttl.trans httl
  maxRecs := h.config.maxRecs.trans hmax
  tidy := (h.tidy cur hmax ht).1
  view k := by rw [(h.tidy cur hmax ht).2, hview]
  pre := h.config.pre.trans hpre
  segmentCount := h.config.segmentCount.trans hcount

/-- The members after `init` has set them. -/
theorem Config.configured (hcfg : cfg.Ok) :
    (st.configured cfg.pre cfg.segmentSize cfg.segmentCount).basePrefix = cfg.pre ∧
      (st.configured cfg.pre cfg.segmentSize cfg.segmentCount).segmentCount
        = cfg.segmentCount := by
  constructor
  · exact List.take_of_length_le (Nat.le_trans hcfg.pre (by decide))
  · refine if_pos fun h => ?_
    have h2 := hcfg.segmentCount
    rw [h] at h2
    exact absurd h2 (by decide)

/-- What a fresh object comes to is what opening the files with the configuration comes to. -/
theorem wp_start (hcfg : cfg.Ok) (order : IterationOrder) {R : Store → FileSystem → Prop}
    (h : ∀ st : Store, st.basePrefix = cfg.pre → st.segmentCount = cfg.segmentCount →
      st.valid = true → st.compactInCooldown = false → st.policyTtlSecs = 0 →
      st.policyMaxRecs = 0 → st.writeBuf = [] → st.index = ∅ →
      cfg.env.wp (st.initFiles false) (fun x fs' => R x.2 fs') fs) :
    cfg.env.wp (cfg.start order) R fs := by
  obtain ⟨hpre, hcount⟩ := @Config.configured cfg (Store.new 65536 8 order) hcfg
  rw [Config.start]
  exact Env.wp_seq (wp_init_configured (fun _ => ⟨trivial, id⟩) (h _ hpre hcount rfl rfl rfl rfl rfl rfl))
    fun x fs' hx => Env.wp_ret hx

/-- A store opened without a record holds nothing. -/
theorem Opened.holds_empty {es : List IndexEntry} {st' : Store} {fs' : FileSystem} {L' : Log}
    (hop : Opened st (Log.empty.rebuilt st.count es) st' fs' L') (hcfg : cfg.Ok)
    (httl : st.policyTtlSecs = 0) (hmax : st.policyMaxRecs = 0) (hpre : st.basePrefix = cfg.pre)
    (hcount : st.segmentCount = cfg.segmentCount) : Holds cfg ∅ st' fs' L' := by
  have htwo : 2 ≤ st.count := Config.two_le_count hcfg hcount
  refine hop.holds httl hmax (Log.rebuilt_empty_tidy htwo 0) rfl (fun k => ?_) hpre hcount
  have hlive : (Log.empty.rebuilt st.count es).live k = none := by
    rw [Log.rebuilt, Log.located_empty]
    rfl
  rw [Log.view, hlive]
  rfl

/-- The first start, without any files. -/
theorem wp_start_fresh (hcfg : cfg.Ok) (order : IterationOrder) (hfresh : cfg.Fresh fs) :
    cfg.env.wp (cfg.start order) (fun st fs' => ∃ L, Holds cfg ∅ st fs' L) fs := by
  refine wp_start hcfg order fun st hpre hcount hvalid hcool httl hmax hbuf _ => ?_
  have hE : cfg.env.Fits st.basePrefix st.count := Config.fits_store hcfg hpre hcount
  have hlt : st.count < 256 := st.segmentCount.toNat_lt
  have hnone (a : StoreFile) (ha : a.Valid) : fs.dir (storePath st.basePrefix a) = none := by
    rw [hpre]
    exact hfresh a ha
  have hf : Files st.basePrefix st.count fs .empty :=
    Files.of_gone (hpre ▸ namesOk_of_length_le hcfg.pre) hlt
      (fun s hs => hnone (.segment s) (Nat.lt_trans hs (spanOf_lt hlt))) (.of_none (hnone .journal trivial))
  exact wp_initFiles_missing hE hf (Log.empty_scannable _) (hnone .index trivial)
    (fun _ _ _ _ => trivial) hvalid (.inr hcool) hbuf
    fun idx es st' fs' L' _ hop => ⟨_, hop.holds_empty hcfg httl hmax hpre hcount⟩

/-- A restart leaves the map as it is. -/
theorem Holds.wp_restart (h : Holds cfg m st fs L) (hcfg : cfg.Ok) (order : IterationOrder) :
    cfg.env.wp (cfg.start order) (fun st fs' => ∃ L, Holds cfg m st fs' L) fs := by
  refine wp_start hcfg order fun st' hpre hcount hvalid hcool httl hmax hbuf hindex => ?_
  have hE : cfg.env.Fits st'.basePrefix st'.count := Config.fits_store hcfg hpre hcount
  have hcount' : st'.count = st.count := by rw [Store.count, hcount, Store.count, h.segmentCount]
  have hd : Disk st'.basePrefix st'.count fs L := by
    rw [hpre, ← h.pre, hcount']
    exact h.ready.rep.disk
  refine wp_initFiles hE hd (by rw [h.ready.indexTail]; exact readEntry_nil) hvalid (.inr hcool) hbuf
    hindex (fun _ _ _ _ => trivial) fun st'' fs' L' hop => ?_
  rw [h.tidy.reloaded] at hop
  exact ⟨_, hop.holds httl hmax (by change L.Tidy st'.count _; rw [hcount']; exact h.tidy) h.ready.indexTail h.view
    hpre hcount⟩

/-- `clear` on an open store leaves nothing, if it leaves recovery nothing to do. -/
theorem wp_clear_open (hcfg : cfg.Ok) (hpre : st.basePrefix = cfg.pre)
    (hcount : st.segmentCount = cfg.segmentCount) (hvalid : st.valid = true)
    (httl : st.policyTtlSecs = 0) (hmax : st.policyMaxRecs = 0) (hbuf : st.writeBuf = [])
    (hindex : st.indexFile.isSome) (hactive : st.activeFile.isSome) (hset : Settled cfg.pre fs) :
    cfg.env.wp st.clear (fun st' fs' => ∃ L', Holds cfg ∅ st' fs' L') fs := by
  have hE : cfg.env.Fits st.basePrefix st.count := Config.fits_store hcfg hpre hcount
  have hn : NamesOk st.basePrefix := hpre ▸ namesOk_of_length_le hcfg.pre
  have htwo : 2 ≤ st.count := Config.two_le_count hcfg hcount
  have hlt : st.count < 256 := st.segmentCount.toNat_lt
  refine wp_clear (L := .empty) hE hvalid (.inl (Nat.zero_lt_of_lt htwo)) hbuf hn hlt
    (hpre.symm ▸ hset) hindex hactive (fun s hc hs => ?_) nofun fun st' fs' L' hr hc hcur hL => ?_
  · rw [spanOf_eq htwo] at hs
    omega
  · have hgone : Log.empty.cleared st.count = Log.empty.rebuilt st.count [] := by
      rw [Log.cleared, Log.rebuilt, Log.located_empty]
      congr 1
      funext s
      exact ite_self _
    have hempty : L' = (Log.empty.rebuilt st.count []).opened 0 := by rw [hL, hgone]
    have ht := Log.opened_tidy (s := 0) (@Log.rebuilt_empty_tidy _ [] htwo 0) fun _ _ => rfl
    rw [← hempty] at ht
    refine ⟨L', hr, hc.ttl.trans httl, hc.maxRecs.trans hmax, ?_, fun k => ?_, hc.pre.trans hpre,
      hc.segmentCount.trans hcount⟩
    · rw [hc.count, hcur]
      exact ht
    · rw [hL]
      rfl

/-- `clear` leaves nothing. -/
theorem Holds.wp_clear (h : Holds cfg m st fs L) (hcfg : cfg.Ok) :
    cfg.env.wp st.clear (fun st' fs' => ∃ L', Holds cfg ∅ st' fs' L') fs := by
  have hr := h.ready.rep
  obtain ⟨hx, hhx, -⟩ := hr.indexFile
  obtain ⟨g, hact⟩ := h.ready.active
  obtain ⟨f, hf, -⟩ := hact.file
  exact wp_clear_open hcfg h.pre h.segmentCount hr.valid h.ttl h.maxRecs hr.buf
    (by rw [hhx]; rfl) (by rw [hf]; rfl) (h.pre ▸ hr.disk.journal)

/-- **One step of a session** answers as the map does and keeps the invariant. -/
theorem Holds.wp_perform (h : Holds cfg m st fs L) (hcfg : cfg.Ok) {c : Command}
    (hc : c.WithinLimits) :
    cfg.env.wp (cfg.perform st c)
      (fun x fs' => c.Answered m x.1 ∧ ∃ L', Holds cfg (c.next m) x.2 fs' L') fs := by
  have hE := h.fits hcfg
  cases c with
  | put clk key data ts priority =>
    obtain ⟨hne, hkey, hdata⟩ := hc
    rw [Config.perform]
    generalize hr : putRecord key data 0 ts priority hkey hdata = r
    have hrotate : cfg.env.wp (st.rotateSegmentIfNeeded clk data.bytes.length) _ fs :=
      wp_rotate_ready hE h.ready
    refine Prog.wp_bind.2 (Store.wp_put hE h.ready.rep.valid hkey hdata hr
      (R := fun _ _ _ => True)
      (Prog.wp_mono hrotate fun _ _ ⟨L', h1, h2, _⟩ => ⟨L', h1, h2, trivial⟩)
      (fun _ _ _ _ _ _ _ _ _ _ _ _ _ => trivial)
      (fun _ _ _ _ _ _ _ _ _ _ _ _ _ _ _ => trivial)
      fun st₁ fs₁ L₁ st' fs' L' hr₁ hc₁ _ hr' _ hs => ?_)
    have hdel : ¬r.deletes := by
      rw [← hr]
      change ¬(0 : UInt8) &&& flagDelete ≠ 0
      decide
    have hrkey : r.key = key.bytes := by rw [← hr]; rfl
    have hrval : r.value = data.bytes := by rw [← hr]; rfl
    have h₁ := h.of_carries hr₁ hc₁
    obtain ⟨g, hact⟩ := hr₁.active
    refine Env.wp_ret ⟨rfl, L', h₁.of_stored hr' hs ?_ (hrkey ▸ hne) (fun _ => by rw [← hr]; rfl)
      fun k => ?_⟩
    · exact hr₁.shows_putIndex hact hdel h₁.maxRecs
    · rw [if_neg hdel, hrkey, hrval]
      by_cases hk : k = key.bytes
      · subst hk
        rw [Function.update_self]
        exact (Finmap.lookup_insert m).symm
      · rw [Function.update_of_ne hk]
        exact (Finmap.lookup_insert_of_ne m hk).symm
  | get clk key =>
    rw [Config.perform]
    refine Prog.wp_bind.2 (wp_getValue hE.reads h.ready.rep hc.2 fun idx hd => ?_)
    refine Env.wp_ret ⟨?_, _, h.of_carries (hd.ready h.ready) (hd.carries h.ready.rep.shows)⟩
    rw [h.tidy.visible h.ttl, h.view]
    rfl
  | «exists» clk key =>
    obtain ⟨idx, hd, he⟩ := exists_eq h.ready.rep clk hc.2
    rw [Config.perform, he]
    refine Env.wp_ret ⟨?_, _, h.of_carries (hd.ready h.ready) (hd.carries h.ready.rep.shows)⟩
    rw [h.tidy.visible h.ttl, h.view]
    rfl
  | remove clk key junkTtl junkPriority =>
    obtain ⟨hne, hkey⟩ := hc
    rw [Config.perform]
    generalize hr : removeRecord key junkTtl junkPriority hkey = r
    have hdel : r.deletes := by
      rw [← hr]
      change flagDelete &&& flagDelete ≠ 0
      decide
    have hrkey : r.key = key.bytes := by rw [← hr]; rfl
    refine Prog.wp_bind.2 (Store.wp_remove hE h.ready hkey hr
      (fun _ _ _ _ _ _ _ _ _ _ _ _ _ => trivial)
      (fun _ _ _ _ _ _ _ _ _ _ _ _ _ _ _ => trivial) fun st' fs' L' hr' _ hs => ?_)
    refine Env.wp_ret ⟨rfl, L', h.of_stored hr' hs
      (h.ready.rep.shows.erase (t := L.place st.currentSegment r) hdel) (hrkey ▸ hne)
      (fun hd => absurd hdel hd) fun k => ?_⟩
    rw [if_pos hdel, hrkey]
    by_cases hk : k = key.bytes
    · subst hk
      rw [Function.update_self]
      exact (Finmap.lookup_erase _ m).symm
    · rw [Function.update_of_ne hk]
      exact (Finmap.lookup_erase_ne hk).symm
  | clear =>
    rw [Config.perform]
    exact Env.wp_seq (h.wp_clear hcfg) fun st' fs' h' => Env.wp_ret ⟨rfl, h'⟩
  | size =>
    rw [Config.perform]
    obtain ⟨ks, hnodup, hmem, hsize⟩ := size_eq h.ready.rep
    refine Env.wp_ret ⟨?_, L, h⟩
    have hcard : ks.toFinset = m.keys := by
      ext k
      rw [List.mem_toFinset, hmem, h.view, Finmap.mem_keys, Finmap.lookup_isSome]
    change Answer.number _ = Answer.number _
    rw [hsize, ← hcard, List.toFinset_card_of_nodup hnodup]
  | iterate =>
    rw [Config.perform]
    refine Prog.wp_bind.2 (wp_iterate hE.reads h.ready.rep fun es hnodup hmem hview => ?_)
    refine Env.wp_ret ⟨⟨es, rfl, hnodup, fun k v => ?_⟩, L, h⟩
    rw [← h.view]
    constructor
    · rintro ⟨e, he, rfl, rfl⟩
      exact hview e he
    · intro hv
      obtain ⟨e, he, rfl⟩ := List.mem_map.1 ((hmem k).2 (by rw [hv]; rfl))
      exact ⟨e, he, rfl, Option.some.inj ((hview e he).symm.trans hv)⟩
  | restart order =>
    rw [Config.perform]
    refine Prog.wp_bind.2 (wp_closeStore hE.reads h.ready.rep.buf ?_)
    exact Env.wp_seq (h.wp_restart hcfg order) fun st' fs' h' => Env.wp_ret ⟨rfl, h'⟩

/-- A run keeps the invariant. -/
theorem Holds.wp_performAll (h : Holds cfg m st fs L) (hcfg : cfg.Ok) {commands : List Command}
    (hc : ∀ c ∈ commands, c.WithinLimits) :
    cfg.env.wp (cfg.performAll st commands)
      (fun x fs' => AnsweredAll m commands x.1 ∧ ∃ L', Holds cfg (m.after commands) x.2 fs' L')
      fs := by
  induction commands generalizing m st fs L with
  | nil => exact Env.wp_ret ⟨rfl, L, h⟩
  | cons c rest ih =>
    rw [Config.performAll]
    refine Env.wp_seq (h.wp_perform hcfg (hc c List.mem_cons_self)) ?_
    rintro ⟨a, st'⟩ fs' ⟨ha, L', h'⟩
    refine Env.wp_seq (ih h' fun c' hc' => hc c' (List.mem_cons_of_mem _ hc')) ?_
    rintro ⟨as, st''⟩ fs'' ⟨has, hL⟩
    exact Env.wp_ret ⟨⟨a, as, rfl, ha, has⟩, hL⟩

/-- A session without faults establishes and keeps the invariant. -/
theorem wp_session (hcfg : cfg.Ok) (order : IterationOrder) {commands : List Command}
    (hc : ∀ c ∈ commands, c.WithinLimits) (hfresh : cfg.Fresh fs) :
    cfg.env.wp (cfg.session order commands)
      (fun x fs' => AnsweredAll ∅ commands x.1 ∧
        ∃ L, Holds cfg (Contents.after ∅ commands) x.2 fs' L) fs := by
  rw [Config.session]
  refine Env.wp_seq (wp_start_fresh hcfg order hfresh) ?_
  rintro st fs' ⟨L, h⟩
  exact h.wp_performAll hcfg hc

/-! ## What a session guarantees

The invariant holds at the end of every session, whence the answers and the state. -/

/-- What a session has reached, at its end. -/
theorem session_reaches (hcfg : cfg.Ok) (order : IterationOrder) {commands : List Command}
    (hc : ∀ c ∈ commands, c.WithinLimits) (hfresh : cfg.Fresh fs)
    (hsmall : ∀ x ∈ Prog.trace posix (cfg.session order commands) fs, cfg.Small x.2) :
    AnsweredAll ∅ commands (Prog.exec posix (cfg.session order commands) fs).1.1 ∧
      ∃ L, Holds cfg (Contents.after ∅ commands)
        (Prog.exec posix (cfg.session order commands) fs).1.2
        (Prog.exec posix (cfg.session order commands) fs).2 L :=
  Env.exec_of_wp (wp_session hcfg order hc hfresh) hsmall

end steps

/-- **A store refines a finite map.**  Without faults, every operation of a session answers as the
map does. -/
theorem session_refines {cfg : Config} (hcfg : cfg.Ok) (order : IterationOrder)
    (commands : List Command) (hc : ∀ c ∈ commands, c.WithinLimits) (fs : FileSystem)
    (hfresh : cfg.Fresh fs)
    (hsmall : ∀ x ∈ Prog.trace posix (cfg.session order commands) fs, cfg.Small x.2) :
    AnsweredAll ∅ commands (Prog.exec posix (cfg.session order commands) fs).1.1 :=
  (session_reaches hcfg order hc hfresh hsmall).1

/-- Four segments under the prefix `a`. -/
def sampleConfig : Config := ⟨['a'], 65536, 4⟩

/-- A put, a restart and a get. -/
def sampleCommands : List Command :=
  [.put ⟨0, 0, 0⟩ (.at [97]) (.at [1]) 0 0, .restart .recent, .get ⟨0, 0, 0⟩ (.at [97])]

/-- It meets the conditions. -/
theorem sampleConfig_ok : sampleConfig.Ok := ⟨by decide, by decide, by decide⟩

theorem session_refines_sample : AnsweredAll ∅ sampleCommands
    (Prog.exec posix (sampleConfig.session .recent sampleCommands) .empty).1.1 :=
  session_refines sampleConfig_ok .recent sampleCommands
    (by simp [sampleCommands, Command.WithinLimits, Buf.bytes, maxKeyLen, maxValueLen]) .empty
    (fun _ _ => rfl) (by decide +kernel)

/-! ## Three views of the index

Each of them starts from nothing: the index file is loaded into an empty index, and the segments are
scanned into an empty one. -/

/-- **The index in memory, the index file and a scan of the segments say the same**, in every state a
session reaches. -/
theorem session_views_agree {cfg : Config} (hcfg : cfg.Ok) (order : IterationOrder)
    (commands : List Command) (hc : ∀ c ∈ commands, c.WithinLimits) (fs : FileSystem)
    (hfresh : cfg.Fresh fs)
    (hsmall : ∀ x ∈ Prog.trace posix (cfg.session order commands) fs, cfg.Small x.2) (st : Store)
    (fs' : FileSystem) (as : List Answer)
    (hend : Prog.exec posix (cfg.session order commands) fs = ((as, st), fs'))
    (hsmall' : cfg.Small fs') (key : Key) :
    (Prog.exec posix (Store.loadIndex { st with index := ∅ }) fs').1.2.indexFind key
        = st.indexFind key ∧
      (Prog.exec posix (Store.rebuildIndexFromSegments { st with index := ∅ }) fs').1.indexFind key
        = st.indexFind key := by
  obtain ⟨-, L, h⟩ := session_reaches hcfg order hc hfresh hsmall
  rw [hend] at h
  dsimp only at h
  have hd := h.ready.rep.disk
  have hlen : ∀ s g, L.segs s = some g → g.bytes.length < 2 ^ 24 := by
    refine hd.files.length_lt ?_
    rw [h.pre, Store.count, h.segmentCount, spanOf_eq (Config.two_le hcfg)]
    exact hsmall'
  have hreads := Env.plain_reads fs'
  have hshows : st.indexFind key = (L.live key).map Located.indexValue := h.ready.rep.shows key
  rw [hshows]
  constructor
  · refine @Env.plain_exec _ _ (fun (x : Bool × Store) _ => x.2.indexFind key = _) fs' ?_
    refine wp_loadIndex hreads (by exact hd) (fun _ => hlen)
      (by rw [h.ready.indexTail]; exact readEntry_nil) ?_
    rw [← h.tidy.saved]
    exact hd.ok.entries key
  · refine @Env.plain_exec _ _ (fun (x : Store) _ => x.indexFind key = _) fs' ?_
    rw [Store.rebuildIndexFromSegments]
    refine Prog.wp_bind.2 (wp_rebuildLoop hreads (by exact hd.files) (fun _ => hlen)
      (h.tidy.scannable _) (Nat.zero_add _) (le_spanOf _) (by exact Index.Shows.empty) fun idx hidx => ?_)
    refine Env.wp_seq (Env.plain_wp _ _) fun _ _ _ => ?_
    refine Env.wp_seq (Env.plain_wp _ _) fun _ _ _ => ?_
    refine Env.wp_seq (Env.plain_wp _ _) fun _ _ _ => Env.wp_ret ?_
    rw [h.tidy.replay]
    exact hidx key

/-- The store and the files the sample session ends in. -/
def sampleEnd : (List Answer × Store) × FileSystem :=
  Prog.exec posix (sampleConfig.session .recent sampleCommands) .empty

theorem session_views_agree_sample :
    (Prog.exec posix (Store.loadIndex { sampleEnd.1.2 with index := ∅ }) sampleEnd.2).1.2.indexFind [97]
        = sampleEnd.1.2.indexFind [97] ∧
      (Prog.exec posix (Store.rebuildIndexFromSegments { sampleEnd.1.2 with index := ∅ })
          sampleEnd.2).1.indexFind [97] = sampleEnd.1.2.indexFind [97] :=
  session_views_agree sampleConfig_ok .recent sampleCommands
    (by simp [sampleCommands, Command.WithinLimits, Buf.bytes, maxKeyLen, maxValueLen]) .empty
    (fun _ _ => rfl) (by decide +kernel) sampleEnd.1.2 sampleEnd.2 sampleEnd.1.1 rfl
    (by decide +kernel) [97]

end MicroStore
