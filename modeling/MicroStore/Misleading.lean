import MicroStore.Rebuilding

/-!
# What an old index file leads to

A compaction leaves the index file alone until it has committed.  After a power loss before that, the
index file still leads to the old places: into segments that have been removed, and into a segment 0
that recovery has made of `compact.tmp`.

## What is here

* `Config.Renames` — the files with which recovery renames: a journal that says that copying is under
  way, and a `compact.tmp`.
* `Led` — a store whose index leads to the places of a log, with what is found there now, segment by
  segment.
* `Config.Leads` — a start leads to such a store; `Checkpoint.leads_settled` and
  `Checkpoint.leads_renamed` are the two cases.
* `compaction_crash_stale` — what a lookup answers after the start, exactly: for a key whose segment is
  0 after a rename, what stands at the old offset in `compact.tmp`; otherwise its value, if the segment
  is still there.
* `compaction_crash_stale_sample` — a run in which that is the value of another key.

`get` compares no keys, so nothing tells the wrong value from the right one.
-/

set_option autoImplicit false

namespace MicroStore

/-- Recovery will put `compact.tmp` in the place of the first segment. -/
def Config.Renames (cfg : Config) (fs : FileSystem) : Prop :=
  ∃ bs, fs.file (storePath cfg.pre .journal) = some bs ∧ Journal.size ≤ bs.length ∧
    (Journal.decode (bs.take Journal.size)).magic = journalMagic ∧
    (Journal.decode (bs.take Journal.size)).state.toNat ≠ JournalState.commit.code ∧
    (Journal.decode (bs.take Journal.size)).nextSeg ≠ 0 ∧ fs.dir (storePath cfg.pre .tmp) ≠ none

/-- There is something to recover. -/
theorem Config.Renames.not_settled {cfg : Config} {fs : FileSystem} (h : cfg.Renames fs) :
    ¬Settled cfg.pre fs := by
  obtain ⟨bs, hbs, hlen, hmagic, -, hnext, htmp⟩ := h
  intro hset
  rcases hset bs hbs with h | h | ⟨-, h | h⟩
  · exact absurd hlen (Nat.not_le.2 h)
  · exact h hmagic
  · exact hnext h
  · exact htmp h

/-- The store answers with what stands at the places of the log in these segments. -/
structure Led (st : Store) (fs : FileSystem) (L : Log) (seg : Nat → Option Bytes) : Prop where
  /-- `init` has succeeded. -/
  valid : st.valid = true
  /-- Nothing is held back. -/
  buf : st.writeBuf = []
  /-- The policy has no TTL. -/
  ttl : st.policyTtlSecs = 0
  /-- The index leads to the places of the log. -/
  find : ∀ k, st.indexFind k = (L.live k).map Located.indexValue
  /-- No record has a TTL. -/
  timeless : ∀ k t, L.live k = some t → t.record.hdr.ttl = 0
  /-- The records are those of their keys. -/
  key : ∀ k t, L.live k = some t → t.record.key = k
  /-- What is read at a place is what stands there. -/
  fetch : ∀ k t, L.live k = some t →
    st.fetch fs t.indexValue = (seg t.seg).bind fun bs => readValue (bs.drop t.off)

/-- A lookup answers what stands at the place. -/
theorem Led.getValue {st : Store} {fs : FileSystem} {L : Log} {seg : Nat → Option Bytes}
    (h : Led st fs L seg) (clk : Clock) (key : Buf) :
    (Prog.exec posix (st.getValue clk key) fs).1.1
      = (L.live key.bytes).bind fun t => (seg t.seg).bind fun bs => readValue (bs.drop t.off) := by
  by_cases hkey : key.bytes.length ≤ maxKeyLen
  · rw [Env.plain_exec (wp_getValue_fetch (Env.plain_reads fs) h.valid h.buf hkey), h.find]
    cases ht : L.live key.bytes with
    | none => rfl
    | some t =>
      have hexp : st.isTtlExpired clk.time t.indexValue.timestamp t.indexValue.ttl.toNat = false :=
        expires_eq_false h.ttl (h.timeless _ t ht) clk.time
      rw [Option.map_some, Option.filter_some, hexp]
      exact h.fetch _ t ht
  · rw [getValue_of_long h.valid hkey]
    cases ht : L.live key.bytes with
    | none => rfl
    | some t =>
      refine absurd ?_ hkey
      rw [← h.key _ t ht]
      exact t.record.key_le

/-- Only the segments with live records matter. -/
theorem Led.congr {st : Store} {fs : FileSystem} {L : Log} {seg seg' : Nat → Option Bytes}
    (h : Led st fs L seg) (hseg : ∀ k t, L.live k = some t → seg t.seg = seg' t.seg) :
    Led st fs L seg' :=
  { h with
    fetch := fun k t ht => by
      rw [h.fetch k t ht, hseg k t ht] }

section starts

variable {cfg : Config} {m : Contents} {st : Store} {fs fs' : FileSystem} {L L₁ : Log} {now : UInt32}
  {n r : Nat}

/-- An index file is short enough for the loop that loads it. -/
theorem Disk.entries_lt {pre : Path} {count : Nat} (hd : Disk pre count fs L)
    (hlen : ∀ s g, L.segs s = some g → g.bytes.length < 2 ^ 24) : L.entries.length < loopFuel := by
  have hle := hd.ok.entries_le
  have hsize := Log.size_le_mul hlen (spanOf count)
  have hlt := spanOf_lt hd.lt
  rw [loopFuel]
  omega

/-- Whatever the segments hold, the index is what the index file leads to. -/
theorem Files.wp_led {pre : Path} {count : Nat} (hf : Files st.basePrefix st.count fs' L₁)
    (hd : Disk pre count fs L) (hfuel : L.entries.length < loopFuel) (htail : L.indexTail = [])
    (hsaved : L.saved = L.live) (h0 : ∀ k t, L.live k = some t → t.record.hdr.ttl = 0)
    (hindex : fs'.file st.indexName = fs.file (storePath pre .index)) (hvalid : st.valid = true)
    (hbuf : st.writeBuf = []) (httl : st.policyTtlSecs = 0) (hmax : st.policyMaxRecs = 0)
    (hempty : st.index = ∅) :
    cfg.env.wp st.initIndex (fun x fs'' => Led x.2 fs'' L fun s => fs'.file (st.segmentName s)) fs' := by
  rw [hd.index, htail] at hindex
  obtain ⟨i, hi, hdata⟩ := Option.map_eq_some_iff.1 hindex
  have hload : load loopFuel (fs'.data i) ∅ = L.entries.foldl (fun idx e => e.apply idx) ∅ := by
    rw [hdata, load_entriesBytes hfuel readEntry_nil]
  refine wp_initIndex_file (E := cfg.env) hf hi hmax (fun _ _ h => h.elim) (fun _ _ => trivial)
    (fun _ _ _ _ _ _ _ => trivial) fun st' fs'' l ho hl hc hv hb hidx => ?_
  exact {
    valid := hv.trans hvalid
    buf := hb.trans hbuf
    ttl := hc.ttl.trans httl
    find := fun k => by
      rw [Store.indexFind, hidx, hempty, hload, ← hsaved]
      exact hd.ok.entries k
    timeless := h0
    key := fun k t ht => hd.ok.key k t (hd.ok.sub k t ht)
    fetch := fun k t ht => by
      have hseg : t.seg < 256 := by
        obtain ⟨g, hg, -⟩ := hd.ok.has k t (hd.ok.sub k t ht)
        exact Nat.lt_trans (hd.ok.segs_lt _ g hg) (spanOf_lt hd.lt)
      rw [Store.fetch, hd.indexValue_segment ht, hd.indexValue_offset ht, Store.segmentName, hc.pre]
      by_cases he : t.seg = l
      · -- the segment that is opened for appending may be a new and empty one
        rw [he, ho.file]
        cases fs'.file (storePath st.basePrefix (.segment l)) with
        | none => rw [Option.getD_none, Option.bind_some, List.drop_nil, readValue_nil]; rfl
        | some bs => rfl
      · rw [ho.frame.file (hf.names.not_mem (.segment t.seg) hseg (by simpa using he))] }

/-- What is relied upon is known when recovery looks for a journal. -/
theorem Config.wp_recover_small {Q : Store → FileSystem → Prop}
    (h : cfg.Small fs → cfg.env.wp st.recoverIfNeeded Q fs) : cfg.env.wp st.recoverIfNeeded Q fs := by
  rw [Store.recoverIfNeeded] at h ⊢
  exact Env.wp_rely trivial h

/-- The places that a start looks at. -/
def Config.Leads (cfg : Config) (fs : FileSystem) (L : Log) (seg : Nat → Option Bytes) : Prop :=
  ∀ order, cfg.env.wp (cfg.start order) (fun st fs' => Led st fs' L seg) fs

/-- **Recovery leaves the segments alone**: the start looks where the records were. -/
theorem Checkpoint.leads_settled (hcp : Checkpoint st L now fs n r fs') (h : Holds cfg m st fs L)
    (hcfg : cfg.Ok) (hset : Settled st.basePrefix fs')
    (hfuel : cfg.Small fs' → L.entries.length < loopFuel) :
    cfg.Leads fs' L fun s => fs'.file (storePath cfg.pre (.segment s)) := by
  refine fun order => wp_start hcfg order fun st' hpre hsc hvalid _ httl hmax hbuf hempty => ?_
  have hE : cfg.env.Fits st'.basePrefix st'.count := Config.fits_store hcfg hpre hsc
  have hd := h.ready.rep.disk
  have hn := hd.names
  have hcount : st.count = st'.count := by rw [Store.count, Store.count, hsc, h.segmentCount]
  have hpre' : st.basePrefix = st'.basePrefix := h.pre.trans hpre.symm
  have hfiles := hcp.files_without hd h.tidy.two_le hset
  have hindex := hcp.frame.file (hn.not_mem .index trivial (by rintro (h | ⟨s, -, h⟩) <;> cases h))
  rw [hpre', hcount] at hfiles
  rw [Store.initFiles, if_neg Bool.false_ne_true]
  refine Env.wp_pure_bind (Prog.wp_bind.2 (Config.wp_recover_small fun hs => ?_))
  refine wp_recoverIfNeeded hE hfiles.lt (.inl hfiles.journal) fun fs1 hf1 _ _ hset1 => ?_
  specialize hf1 hfiles.journal
  have hindex1 := (hf1.file (hfiles.names.not_mem .index trivial id)).trans (hpre' ▸ hindex)
  refine Prog.wp_mono ((hfiles.frame hf1 hset1).wp_led hd (hfuel hs) h.ready.indexTail h.tidy.saved
    (fun k t ht => (h.tidy.record ht).2) (hpre' ▸ hindex1) hvalid hbuf httl hmax hempty)
    fun x fs2 hx => hx.congr fun k t ht => ?_
  have hseg : t.seg < 256 := by
    obtain ⟨g, hg, -⟩ := hd.ok.has k t (hd.ok.sub k t ht)
    exact Nat.lt_trans (hd.ok.segs_lt _ g hg) (spanOf_lt hd.lt)
  rw [Store.segmentName, ← hpre]
  exact hf1.file (hfiles.names.not_mem (.segment t.seg) hseg id)

/-- **Recovery puts `compact.tmp` in the place of the first segment**: the start looks there, at the old
offsets. -/
theorem Checkpoint.leads_renamed (hcp : Checkpoint st L now fs n r fs') (h : Holds cfg m st fs L)
    (hcfg : cfg.Ok) (hpos : 0 < n) (hj : fs'.file st.journalName = some (st.journalAt L now n).encode)
    (hfuel : cfg.Small fs' → L.entries.length < loopFuel) :
    cfg.Leads fs' L fun s => fs'.file (storePath cfg.pre (if s = 0 then .tmp else .segment s)) := by
  refine fun order => wp_start hcfg order fun st' hpre hsc hvalid _ httl hmax hbuf hempty => ?_
  have hE : cfg.env.Fits st'.basePrefix st'.count := Config.fits_store hcfg hpre hsc
  have hd := h.ready.rep.disk
  have hn := hd.names
  have hcount : st.count = st'.count := by rw [Store.count, Store.count, hsc, h.segmentCount]
  have hpre' : st.basePrefix = st'.basePrefix := h.pre.trans hpre.symm
  obtain ⟨i, x, hi, hdata⟩ := hcp.tmp hpos
  have htmp : fs'.file st.tmpName = some (recordsBytes (st.image L now n) ++ x) := by
    rw [FileSystem.file_eq_some hi, hdata]
  have hindex := hcp.frame.file (hn.not_mem .index trivial (by rintro (h | ⟨s, -, h⟩) <;> cases h))
  rw [Store.initFiles, if_neg Bool.false_ne_true]
  refine Env.wp_pure_bind (Prog.wp_bind.2 (Config.wp_recover_small fun hs => ?_))
  refine wp_recover_rename (hpre' ▸ hn) (fun _ _ _ => trivial) hE.mild
    (by rw [Store.journalName, ← hpre']; exact hj) rfl journalAt_state (hcp.nextSeg_ne hd.lt hpos)
    (by rw [Store.tmpName, ← hpre']; exact htmp) fun fs1 hf1 hj1 hseg => ?_
  rw [Store.journalName, ← hpre'] at hj1
  rw [Store.segmentName, ← hpre'] at hseg
  rw [← hpre'] at hf1
  have hfiles : Files st.basePrefix st.count fs1 (L.merged ⟨st.image L now n, x⟩ r) :=
    hcp.files_merged hd h.tidy.two_le
      (hf1.mono fun p hp => hp.mono (fun a ha => ha.imp_right .inr) p) (.of_none hj1) hseg
  have hindex1 := (hf1.file (hn.not_mem .index trivial (by simp [StoreFile.scratch]))).trans hindex
  rw [hpre', hcount] at hfiles
  refine Prog.wp_mono (hfiles.wp_led hd (hfuel hs) h.ready.indexTail h.tidy.saved
    (fun k t ht => (h.tidy.record ht).2) (hpre' ▸ hindex1) hvalid hbuf httl hmax hempty)
    fun x fs2 hx => hx.congr fun k t ht => ?_
  have hlt : t.seg < 256 := by
    obtain ⟨g, hg, -⟩ := hd.ok.has k t (hd.ok.sub k t ht)
    exact Nat.lt_trans (hd.ok.segs_lt _ g hg) (spanOf_lt hd.lt)
  rw [Store.segmentName, ← hpre']
  by_cases h0 : t.seg = 0
  · rw [h0, if_pos rfl, hseg, ← h.pre, ← htmp]
  · rw [if_neg h0, ← h.pre]
    exact hf1.file (hn.not_mem (.segment t.seg) hlt (by simpa [StoreFile.scratch] using h0))

/-- What stands at the old place of a live record, if recovery has left its segment alone. -/
theorem Checkpoint.read_segment (hcp : Checkpoint st L now fs n r fs') (h : Holds cfg m st fs L)
    {k : Key} {t : Located} (ht : L.live k = some t) :
    ((fs'.file (storePath cfg.pre (.segment t.seg))).bind fun bs => readValue (bs.drop t.off))
      = if (fs'.dir (storePath cfg.pre (.segment t.seg))).isSome then m.lookup k else none := by
  have hd := h.ready.rep.disk
  have hiff := hcp.dir_isSome_iff hd h.tidy.two_le ht
  rw [hd.indexValue_segment ht, Store.segmentName, h.pre] at hiff
  by_cases hle : r ≤ t.seg
  · obtain ⟨g, hg, rest, hrest⟩ := hd.ok.has k t (hd.ok.sub k t ht)
    have hfile := hcp.segment hd (spanOf_eq h.tidy.two_le ▸ hd.ok.segs_lt _ g hg) hle
    rw [Store.segmentName, h.pre, hg] at hfile
    rw [if_pos (hiff.2 hle), hfile, Option.map_some, Option.bind_some, ← hrest, readValue_bytes,
      ← h.view, Log.view, ht]
    rfl
  · have hnone : fs'.dir (storePath cfg.pre (.segment t.seg)) = none :=
      Option.not_isSome_iff_eq_none.1 (mt hiff.1 hle)
    rw [FileSystem.file_eq_none.2 hnone, hnone]
    rfl

/-- **Where a start looks** after a compaction that has been interrupted before its commit. -/
theorem Interrupted.leads (hi : Interrupted st L now fs fs') (h : Holds cfg m st fs L) (hcfg : cfg.Ok)
    (hbefore : fs'.file (storePath cfg.pre .journal) ≠ some commitJournal.encode)
    (hfuel : cfg.Small fs' → L.entries.length < loopFuel) :
    ∃ seg, cfg.Leads fs' L seg ∧ ∀ k t, L.live k = some t →
      (cfg.Renames fs' → t.seg = 0 → seg t.seg = fs'.file (storePath cfg.pre .tmp)) ∧
      (¬(cfg.Renames fs' ∧ t.seg = 0) →
        ((seg t.seg).bind fun bs => readValue (bs.drop t.off))
          = if (fs'.dir (storePath cfg.pre (.segment t.seg))).isSome then m.lookup k else none) := by
  have hpre : st.basePrefix = cfg.pre := h.pre
  rcases hi with ⟨n, r, hcp, hj, -⟩ | ⟨hj, -⟩
  swap
  · refine absurd ?_ hbefore
    rw [← h.pre]
    exact hj fun _ _ => id
  have settled (hset : Settled st.basePrefix fs') :
      ∃ seg, cfg.Leads fs' L seg ∧ ∀ k t, L.live k = some t →
        (cfg.Renames fs' → t.seg = 0 → seg t.seg = fs'.file (storePath cfg.pre .tmp)) ∧
        (¬(cfg.Renames fs' ∧ t.seg = 0) →
          ((seg t.seg).bind fun bs => readValue (bs.drop t.off))
            = if (fs'.dir (storePath cfg.pre (.segment t.seg))).isSome then m.lookup k else none) :=
    ⟨_, hcp.leads_settled h hcfg hset hfuel, fun k t ht =>
      ⟨fun hren => absurd (h.pre ▸ hset) hren.not_settled, fun _ => hcp.read_segment h ht⟩⟩
  rcases hj with hj | hj | ⟨-, hset⟩
  · rcases Nat.eq_zero_or_pos n with rfl | hpos
    · refine settled fun bs hbs => ?_
      obtain rfl := Option.some.inj (hj.symm.trans hbs)
      rw [decode_take_encode]
      exact .inr (.inr ⟨journalAt_state, .inl rfl⟩)
    · obtain ⟨i, x, htmp, -⟩ := hcp.tmp hpos
      have hren : cfg.Renames fs' := by
        refine ⟨_, by rw [← hpre]; exact hj, Nat.le_of_eq (Journal.length_encode _).symm, ?_, ?_, ?_, ?_⟩
        · rw [decode_take_encode]
          rfl
        · rw [decode_take_encode]
          exact journalAt_state
        · rw [decode_take_encode]
          exact hcp.nextSeg_ne h.ready.rep.disk.lt hpos
        · rw [← hpre]
          exact fun h => by cases htmp.symm.trans h
      refine ⟨_, hcp.leads_renamed h hcfg hpos hj hfuel, fun k t ht => ⟨fun _ h0 => ?_, fun hnot => ?_⟩⟩
      · rw [if_pos h0]
      · rw [if_neg fun h0 => hnot ⟨hren, h0⟩]
        exact hcp.read_segment h ht
  · refine settled fun bs hbs => ?_
    obtain rfl := Option.some.inj (hj.symm.trans hbs)
    exact .inl (by decide)
  · exact settled hset

end starts

/-- **What an old index file costs.**  When the power goes before a compaction has committed, the next
`init` finds a key exactly as far as the segment that the index led to is still there; but when recovery
makes segment 0 of `compact.tmp`, the keys of segment 0 get what stands there at the old offset: nothing,
their own value, or the value of another key. -/
theorem compaction_crash_stale {cfg : Config} (hcfg : cfg.Ok) (order : IterationOrder)
    (commands : List Command) (hc : ∀ c ∈ commands, c.WithinLimits) (fs : FileSystem)
    (hfresh : cfg.Fresh fs)
    (hsmall : ∀ x ∈ Prog.trace posix (cfg.session order commands) fs, cfg.Small x.2) (as : List Answer)
    (st : Store) (fs₁ : FileSystem)
    (hend : Prog.exec posix (cfg.session order commands) fs = ((as, st), fs₁)) (now : UInt32)
    (fs₂ : FileSystem) (hcut : Prog.Cut posix cfg.Small (st.compact now) fs₁ fs₂)
    (hbefore : fs₂.file (storePath cfg.pre .journal) ≠ some commitJournal.encode)
    (order' : IterationOrder)
    (hsmall' : ∀ x ∈ Prog.trace posix (cfg.start order') fs₂, cfg.Small x.2) (clk : Clock) (key : Buf) :
    (st.indexFind key.bytes = none → cfg.getAfter order' fs₂ clk key = none) ∧
      ∀ e, st.indexFind key.bytes = some e →
        (cfg.Renames fs₂ → e.segment.toNat = 0 → cfg.getAfter order' fs₂ clk key
          = (fs₂.file (storePath cfg.pre .tmp)).bind fun bs => readValue (bs.drop e.offset.toNat)) ∧
        (¬(cfg.Renames fs₂ ∧ e.segment.toNat = 0) → cfg.getAfter order' fs₂ clk key
          = if (fs₂.dir (storePath cfg.pre (.segment e.segment.toNat))).isSome then
              (Contents.after ∅ commands).lookup key.bytes
            else none) := by
  obtain ⟨-, L, hL⟩ := session_reaches hcfg order hc hfresh hsmall
  rw [hend] at hL
  have hd := hL.ready.rep.disk
  have hfuel (hs₂ : cfg.Small fs₂) : L.entries.length < loopFuel := by
    refine hd.entries_lt (hd.files.length_lt fun s hs bs hbs => ?_)
    have hs₁ : cfg.Small fs₁ := by
      rcases hcut.start with rfl | hs
      · exact hs₂
      · exact hs
    rw [hL.pre] at hbs
    rw [spanOf_eq hL.tidy.two_le, hL.count_eq] at hs
    exact hs₁ s hs bs hbs
  obtain ⟨seg, hleads, hseg⟩ := (hL.interrupted hcfg hcut).leads hL hcfg hbefore hfuel
  have hget : cfg.getAfter order' fs₂ clk key
      = (L.live key.bytes).bind fun t => (seg t.seg).bind fun bs => readValue (bs.drop t.off) :=
    (Env.exec_of_wp (hleads order') hsmall').getValue clk key
  have hfind : st.indexFind key.bytes = (L.live key.bytes).map Located.indexValue :=
    hL.ready.rep.shows key.bytes
  rw [hget, hfind]
  cases ht : L.live key.bytes with
  | none => exact ⟨fun _ => rfl, fun e he => by cases he⟩
  | some t =>
    refine ⟨fun h => (by cases h), fun e he => ?_⟩
    obtain rfl := Option.some.inj he
    rw [hd.indexValue_segment ht, hd.indexValue_offset ht, Option.bind_some]
    refine ⟨fun hren h0 => ?_, (hseg _ t ht).2⟩
    rw [(hseg _ t ht).1 hren h0]

/-- The key `a` is put twice among others. -/
def staleCommands : List Command :=
  let put (k v : UInt8) : Command := .put ⟨0, 0, 0⟩ (.at [k]) (.at [v]) 0 0
  [put 99 9, put 100 9, put 101 9, put 97 1, put 97 2, put 98 3]

/-- The store at the end of the session. -/
def staleEnd : (List Answer × Store) × FileSystem :=
  Prog.exec posix (sampleConfig.session .recent staleCommands) .empty

theorem staleCut_lt : 52 < (Prog.trace posix (staleEnd.1.2.compact 0) staleEnd.2).length := by
  decide +kernel

/-- The power goes once the first segment has been journaled as copied. -/
def staleCut : FileSystem :=
  ((Prog.trace posix (staleEnd.1.2.compact 0) staleEnd.2).get ⟨52, staleCut_lt⟩).2

/-- `get` answers for `a` with the value of `b`. -/
theorem compaction_crash_stale_sample :
    sampleConfig.getAfter .recent staleCut ⟨0, 0, 0⟩ (.at [97]) = some [3] ∧
      (Contents.after ∅ staleCommands).lookup [97] = some [2] := by
  refine ⟨?_, by decide +kernel⟩
  have hstale := compaction_crash_stale sampleConfig_ok .recent staleCommands
    (by simp [staleCommands, Command.WithinLimits, Buf.bytes, maxKeyLen, maxValueLen]) .empty
    (fun _ _ => rfl) (by decide +kernel) staleEnd.1.1 staleEnd.1.2 staleEnd.2 rfl 0 staleCut
    ⟨⟨52, staleCut_lt⟩, rfl, by decide +kernel⟩ (by decide +kernel) .recent (by decide +kernel)
    ⟨0, 0, 0⟩ (.at [97])
  rw [(hstale.2 ⟨0, .ofNat 108, 0, .ofNat 0, 0⟩ (by decide +kernel)).1 ?_ (by decide)]
  · decide +kernel
  · exact ⟨_, rfl, by decide +kernel, by decide +kernel, by decide +kernel, by decide +kernel,
      by decide +kernel⟩

end MicroStore
