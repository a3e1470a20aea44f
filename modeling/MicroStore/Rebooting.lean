import MicroStore.Interrupting

/-!
# What a power loss behind the rename costs

Between the rename of `compact.tmp` and the removal of the journal there is a window.  The journal still
says that the compaction has been committed, so recovery runs its end again: it removes all segments,
the renamed one among them, and finds no `compact.tmp` to rename.  Everything is lost then, and `init`
returns true.

## What is here

* `Config.getAfter` — what `get` answers after an opening of the files.
* `Config.Window` — the state: the commit journal is there, `compact.tmp` is not, and the index file
  leads to segment 0 alone.
* `Config.Lost` — the same once recovery has been at work, possibly interrupted: the segments are about
  to be removed or are gone.
* `Config.Wiped.wp_initIndex` — what `init` does behind the recovery when the segments are gone: nothing.
* `Config.Lost.start`, `Config.Lost.attempts` — a start that runs to its end leaves no byte in any
  segment, and one that is interrupted leaves files for which this is true of the next.
* `compaction_crash_window` — the last call of every compaction, the removal of the journal, finds the
  files in this state.

The store is the one of a session (`Session.lean`), so what is lost is the whole of its map.
-/

set_option autoImplicit false

namespace MicroStore

/-- What `get` answers after an opening of the files. -/
def Config.getAfter (cfg : Config) (order : IterationOrder) (fs : FileSystem) (clk : Clock)
    (key : Buf) : Option Value :=
  let s := Prog.exec posix (cfg.start order) fs
  (Prog.exec posix (s.1.getValue clk key) s.2).1.1

/-- `get` answers what it finds where the index leads to, whatever that is. -/
theorem wp_getValue_fetch {E : Env} {st : Store} {fs : FileSystem} (hE : E.Reads fs)
    (hvalid : st.valid = true) (hbuf : st.writeBuf = []) {clk : Clock} {key : Buf}
    (hkey : key.bytes.length ≤ maxKeyLen) :
    E.wp (st.getValue clk key) (fun x _ => x.1 = ((st.indexFind key.bytes).filter fun e =>
      !st.isTtlExpired clk.time e.timestamp e.ttl.toNat).bind (st.fetch fs)) fs := by
  rw [Store.getValue, Store.get, if_neg (by rw [hvalid]; decide), if_neg (Nat.not_lt.2 hkey),
    flushBuffer_nil hbuf]
  refine Prog.wp_bind.2 (Env.wp_pure_bind ?_)
  dsimp only
  cases st.indexFind key.bytes with
  | none => exact rfl
  | some e =>
    dsimp only
    cases hexp : st.isTtlExpired clk.time e.timestamp e.ttl.toNat with
    | true =>
      rw [if_pos rfl]
      refine Env.wp_ret (Env.wp_ret ?_)
      rw [Option.filter_some, hexp]
      rfl
    | false =>
      rw [if_neg (by decide)]
      refine Prog.wp_bind.2 (wp_getAt hE (Env.wp_ret (Env.wp_ret ?_)))
      simp only [Option.filter_some, hexp, Bool.not_false, if_true, Option.bind_some, Option.map_map]
      cases st.fetch fs e with
      | none => rfl
      | some v => exact congrArg some (List.take_length ..)

/-! ## The window behind the rename

The index file has been rewritten before, so it leads to places in segment 0, which recovery has
emptied.  A lookup finds nothing there. -/

section window

variable {cfg : Config} {m : Contents} {st : Store} {fs fs' : FileSystem} {L : Log} {now : UInt32}

/-- There is an index file, and it leads to segment 0 only. -/
def Config.LeadsToFirst (cfg : Config) (fs : FileSystem) : Prop :=
  ∃ i, fs.dir (storePath cfg.pre .index) = some i ∧
    ∀ k v, (load loopFuel (fs.data i) ∅).lookup k = some v → v.segment.toNat = 0

/-- `compact.tmp` has become segment 0, but the journal still tells recovery to rename it. -/
def Config.Window (cfg : Config) (fs : FileSystem) : Prop := cfg.Dangling fs ∧ cfg.LeadsToFirst fs

/-- No segment file holds a byte. -/
def Config.Wiped (cfg : Config) (fs : FileSystem) : Prop :=
  ∀ s < cfg.segmentCount.toNat, (fs.file (storePath cfg.pre (.segment s))).getD [] = []

/-- Recovery is about to remove all segments, or has done so. -/
def Config.Lost (cfg : Config) (fs : FileSystem) : Prop :=
  (cfg.Dangling fs ∨ fs.dir (storePath cfg.pre .journal) = none ∧ cfg.Wiped fs) ∧ cfg.LeadsToFirst fs

/-- A compaction whose segment has been moved and whose index file has been rewritten is in the window. -/
theorem Config.window_of_moved (hpre : st.basePrefix = cfg.pre) (hn : NamesOk st.basePrefix)
    {rs : List Record} {es : List IndexEntry} {i : Nat} (hm : Moved st rs fs fs')
    (hj : fs.file st.journalName = some commitJournal.encode)
    (hfile : fs'.file st.indexName = some (entriesBytes es)) (hi : fs'.dir st.indexName = some i)
    (hes : Index.Shows (es.foldl (fun idx e => e.apply idx) ∅) (scanned rs))
    (hle : es.length ≤ rs.length) (hlen : (recordsBytes rs).length < 2 ^ 24) : cfg.Window fs' := by
  rw [Config.Window, Config.Dangling, Config.LeadsToFirst, ← hpre]
  refine ⟨⟨(hm.frame.file (hn.not_mem .journal trivial (by simp))).trans hj, hm.tmp⟩, i, hi,
    fun k v hv => ?_⟩
  have hdata : fs'.data i = entriesBytes es ++ [] := by
    rw [List.append_nil]
    exact Option.some.inj ((FileSystem.file_eq_some hi).symm.trans hfile)
  have hfuel : es.length < loopFuel := by
    have hrs := length_le_recordsBytes rs
    rw [loopFuel]
    omega
  rw [hdata, load_entriesBytes hfuel readEntry_nil, hes k] at hv
  obtain ⟨t, ht, rfl⟩ := Option.map_eq_some_iff.1 hv
  have hseg := (mem_locate (scanned_eq_some ht).1).1
  change (UInt8.ofNat t.seg).toNat = 0
  rw [hseg]
  rfl

/-- **Every compaction goes through the window**: its last call, the removal of the journal, finds it. -/
theorem Holds.ends_window (h : Holds cfg m st fs L) (hcfg : cfg.Ok)
    (hsmall : ∀ x ∈ Prog.trace posix (st.compact now) fs, cfg.Small x.2) :
    Prog.Ends posix (fun c fs' => c = .remove (storePath cfg.pre .journal) ∧ cfg.Window fs')
      (st.compact now) fs := by
  have hE := h.fits hcfg
  have hno : cfg.env.Faultless := fun _ _ => id
  have hd := h.ready.rep.disk
  have hn := hd.names
  have hprune : st.pruneIndexToMaxRecs = (0, st) := pruneIndexToMaxRecs_eq (.inl h.maxRecs)
  have hrun {β : Type} (p : FsM β) (fs : FileSystem) (hp : ∀ x ∈ Prog.trace posix p fs, cfg.Small x.2) :
      ∀ x ∈ Prog.trace posix p fs,
        cfg.env.Outcome x.1 x.2 (posix x.1 x.2).1 (posix x.1 x.2).2 :=
    fun x hx => ⟨hp x hx, .inl rfl⟩
  have hsmall := hrun _ _ hsmall
  rw [Store.compact_eq, hprune] at hsmall ⊢
  refine Prog.ends_seq (wp_writeJournal (j := st.journalAt L now 0) rfl hE.mild
    (fun _ _ _ _ _ => trivial) (Q := fun _ fs' => Frame (Names st.basePrefix (· = .journal)) fs fs' ∧
      fs'.file st.journalName = some (st.journalAt L now 0).encode)
    fun fs' hf hj => ⟨hf, hj hno⟩) hsmall fun _ fs1 h1 hsmall => ?_
  obtain ⟨hf1, hj1⟩ := h1
  have hopen : cfg.env.wp (openFile st.tmpName .write) (fun f fs' => ∃ i, f = some ⟨i, 0, .write⟩ ∧
      Frame (Names st.basePrefix (· = .tmp)) fs1 fs' ∧ fs'.dir st.tmpName = some i ∧
      fs'.data i = []) fs1 :=
    wp_openWrite (a := .tmp) (k := pure) trivial trivial
      (fun fs' i hf hi hnil => Env.wp_ret ⟨i, rfl, hf, hi, hnil⟩) fun ha => ha.elim
  refine Prog.ends_seq hopen hsmall fun f fs2 h2 hsmall => ?_
  obtain ⟨i, rfl, hf2, hi, hnil⟩ := h2
  have hj2 : fs2.file st.journalName = some (st.journalAt L now 0).encode :=
    (hf2.file (hn.not_mem .journal trivial (by simp))).trans hj1
  have hstart := (hf1.scratch .journal trivial).trans (hf2.scratch .tmp trivial)
  have hloop : cfg.env.wp (st.compactLoop now st.count 0 ⟨i, 0, .write⟩) (fun r fs' => ∃ outf,
      r = (true, st.count, outf) ∧ Output st (st.image L now st.count) outf fs') fs2 :=
    wp_compactLoop hd hE.mild (fun _ _ _ _ => trivial) (Nat.zero_add _) (.start hstart) (fun _ => hj2)
      ⟨rfl, hi, hnil, rfl⟩ (fun outf fs' _ _ hout => ⟨outf, rfl, hout⟩) fun h => absurd hno h
  refine Prog.ends_seq hloop hsmall fun r fs3 h3 hsmall => ?_
  obtain ⟨outf, rfl, hout⟩ := h3
  dsimp only at hsmall ⊢
  have hstay (c : Call) (hc : ∀ fs, (posix c fs).2 = fs) (fs : FileSystem) :
      cfg.env.wp (call c) (fun _ fs' => fs = fs') fs :=
    Env.wp_last trivial id fun _ => (hc fs).symm
  refine Prog.ends_seq (hstay (.flush outf) (fun _ => rfl) fs3) hsmall fun _ fs4 h4 hsmall => ?_
  subst h4
  refine Prog.ends_seq (hstay (.close outf) (fun _ => rfl) fs3) hsmall fun _ fs5 h5 hsmall => ?_
  subst h5
  rw [if_neg (by decide)] at hsmall ⊢
  refine Prog.ends_seq (wp_writeJournal (j := commitJournal) rfl hE.mild
    (fun _ _ _ _ _ => trivial) (Q := fun _ fs' => Frame (Names st.basePrefix (· = .journal)) fs3 fs' ∧
      fs'.file st.journalName = some commitJournal.encode)
    fun fs' hf hj => ⟨hf, hj hno⟩) hsmall fun _ fs6 h6 hsmall => ?_
  obtain ⟨hf6, hj6⟩ := h6
  have hout6 := hout.frame hf6 (hn.not_mem .tmp trivial (by simp))
  have htmp6 : fs6.file st.tmpName = some (recordsBytes (st.image L now st.count)) := by
    rw [FileSystem.file_eq_some hout6.dir, hout6.data]
  have hbound (fs' : FileSystem)
      (hfile : fs'.file (st.segmentName 0) = some (recordsBytes (st.image L now st.count)))
      (hs : cfg.env.rely fs') : (recordsBytes (st.image L now st.count)).length < 2 ^ 24 :=
    hE.small fs' hs 0 (Nat.lt_of_lt_of_le Nat.zero_lt_two (two_le_spanOf _)) _ hfile
  have hfinal : cfg.env.wp st.finalizeCompaction (fun st' fs' => st'.basePrefix = st.basePrefix ∧
      cfg.Window fs') fs6 :=
    wp_finalizeCompaction hn hd.lt hE.mild htmp6 (fun r hr => (h.image_records hr).1) hbound
      (fun _ _ _ _ => trivial) (fun _ _ _ => trivial)
      fun _ _ _ fs' hm _ hfile hi hes hle _ hlen =>
        ⟨rfl, Config.window_of_moved h.pre hn hm hj6 hfile hi hes hle hlen⟩
  refine Prog.ends_seq hfinal hsmall fun st' fs7 h7 _ => ?_
  rw [Store.clearJournal, Store.journalName, h7.1, h.pre]
  exact Prog.ends_call ⟨rfl, h7.2⟩

/-- The index file has not changed. -/
theorem Config.LeadsToFirst.frame {S : StoreFile → Prop} (h : cfg.LeadsToFirst fs)
    (hn : NamesOk cfg.pre) (hf : Frame (Names cfg.pre S) fs fs') (hS : ¬S .index) : cfg.LeadsToFirst fs' := by
  obtain ⟨i, hi, hseg⟩ := h
  have hindex := hn.not_mem .index trivial hS
  refine ⟨i, (hf.dir hindex).trans hi, ?_⟩
  rw [hf.data hindex hi]
  exact hseg

/-- Recovery with a committed compaction whose `compact.tmp` is gone removes the segments. -/
theorem wp_recover_dangling {E : Env} (hlt : st.count < 256)
    (hmild : ∀ c fs, E.allowed fs c → Scratch st.basePrefix fs c)
    (hj : fs.file st.journalName = some commitJournal.encode) (htmp : fs.dir st.tmpName = none)
    (hn : NamesOk st.basePrefix)
    (hinv : ∀ c fs', Frame (Names st.basePrefix fun a => a ≠ .index ∧ a ≠ .journal) fs fs' →
      fs'.dir st.tmpName = none → E.inv c fs') {Q : Store → FileSystem → Prop}
    (hQ : ∀ fs', Frame (Names st.basePrefix (· ≠ .index)) fs fs' → fs'.dir st.journalName = none →
      (∀ s < st.count, fs'.dir (st.segmentName s) = none) → Q st fs') :
    E.wp st.recoverIfNeeded Q fs := by
  have hat (c : Call) : E.inv c fs := hinv c fs (Frame.refl _ _) htmp
  have hE := Env.reads_of (fun c _ => hat c) hmild
  obtain ⟨i, hi, hdata⟩ := Option.map_eq_some_iff.1 hj
  have hrest : Handle.rest ⟨i, 0, .read⟩ fs = commitJournal.encode := hdata
  rw [Store.recoverIfNeeded]
  refine wp_openRead hE (fun h => ?_) fun i' hi' _ => ?_
  · cases hi.symm.trans h
  obtain rfl : i = i' := Option.some.inj (hi.symm.trans hi')
  refine wp_read hE rfl fun f' _ _ => wp_close hE ?_
  have hvalid : ¬((commitJournal.encode.take Journal.size).length ≠ Journal.size ∨
      commitJournal.magic ≠ journalMagic) := by
    rw [List.take_of_length_le (Nat.le_of_eq commitJournal.length_encode)]
    rintro (h | h)
    · exact h commitJournal.length_encode
    · exact h rfl
  rw [hrest, decode_take_encode]
  dsimp only
  rw [if_neg hvalid, if_pos commitJournal_state, Store.finalizeCompaction]
  have hbelow {fs' : FileSystem} (hf : Frame (Names st.basePrefix (StoreFile.below st.count)) fs fs') :
      Frame (Names st.basePrefix fun a => a ≠ .index ∧ a ≠ .journal) fs fs' :=
    hf.mono fun p hp => hp.mono (fun a ha => ⟨by rintro rfl; exact ha, by rintro rfl; exact ha⟩) p
  have htmp' {fs' : FileSystem} (hf : Frame (Names st.basePrefix (StoreFile.below st.count)) fs fs') :
      fs'.dir st.tmpName = none := (hf.dir (hn.not_mem .tmp trivial id)).trans htmp
  refine Prog.wp_bind.2 (Prog.wp_bind.2 (wp_removeSegments (Nat.zero_add _) (Nat.le_of_lt hlt)
    (fun s fs' hf => ⟨hinv _ fs' (hbelow hf) (htmp' hf), hmild _ _⟩) fun fs1 hf1 _ hgone => ?_))
  have hat1 (c : Call) : E.inv c fs1 := hinv c fs1 (hbelow hf1) (htmp' hf1)
  refine wp_rename_missing (htmp' hf1) ⟨hat1 _, hmild _ _⟩ ?_
  rw [if_pos (by decide)]
  refine wp_remove (a := .tmp) trivial ⟨hat1 _, hmild _ _⟩ fun fs2 _ hf2 hnone2 => Env.wp_ret ?_
  have hf12 := (hbelow hf1).trans (hf2.mono fun p hp =>
    hp.mono (T := fun a => a ≠ .index ∧ a ≠ .journal) (by rintro a rfl; simp) p)
  refine wp_remove (a := .journal) trivial ⟨hinv _ fs2 hf12 hnone2, hmild _ _⟩
    fun fs3 _ hf3 hnone3 => Env.wp_ret (hQ fs3 ?_ hnone3 fun s hs => ?_)
  · exact (hf12.mono fun p hp => hp.mono (fun _ ha => ha.1) p).trans
      (hf3.mono fun p hp => hp.mono (by rintro a rfl; simp) p)
  · have hs256 : s < 256 := Nat.lt_trans hs hlt
    rw [hf3.dir (hn.not_mem (.segment s) hs256 (by simp)),
      hf2.dir (hn.not_mem (.segment s) hs256 (by simp))]
    exact hgone s (Nat.zero_le s) hs

/-- The power may go at any call: everything is lost. -/
def Config.lossGuard (cfg : Config) : Env := ⟨fun _ _ => False, fun _ => True, fun _ fs => cfg.Lost fs⟩

/-- A log of empty segments, those that are there. -/
def Config.bareLog (cfg : Config) (fs : FileSystem) : Log :=
  { Log.empty with
    segs := fun s => if s < cfg.segmentCount.toNat then
      (fs.file (storePath cfg.pre (.segment s))).map fun _ => ⟨[], []⟩ else none }

/-- What is left are empty segments. -/
theorem Config.Wiped.files (h : cfg.Wiped fs) (hcfg : cfg.Ok) (hset : Settled cfg.pre fs) :
    Files cfg.pre cfg.segmentCount.toNat fs (cfg.bareLog fs) where
  names := namesOk_of_length_le hcfg.pre
  lt := cfg.segmentCount.toNat_lt
  segs_lt s g hg := by
    rw [spanOf_eq (Config.two_le hcfg)]
    by_contra hs
    cases (if_neg hs).symm.trans hg
  segs s hs := by
    rw [spanOf_eq (Config.two_le hcfg)] at hs
    have hwiped := h s hs
    change _ = Option.map _ (if s < _ then _ else _)
    rw [if_pos hs]
    cases hfile : fs.file (storePath cfg.pre (.segment s)) with
    | none => rfl
    | some bs =>
      rw [hfile, Option.getD_some] at hwiped
      rw [hwiped]
      rfl
  journal := hset

/-- Behind the recovery `init` finds nothing to read, and makes nothing. -/
theorem Config.Wiped.wp_initIndex (hw : cfg.Wiped fs) (hcfg : cfg.Ok)
    (hj : fs.dir (storePath cfg.pre .journal) = none) (hl : cfg.LeadsToFirst fs)
    (hpre : st.basePrefix = cfg.pre) (hsc : st.segmentCount = cfg.segmentCount)
    (hmax : st.policyMaxRecs = 0) (hvalid : st.valid = true) (hbuf : st.writeBuf = [])
    (hindex : st.index = ∅) :
    cfg.lossGuard.wp st.initIndex (fun x fs' => cfg.Wiped fs' ∧ x.2.basePrefix = cfg.pre ∧
      x.2.valid = true ∧ x.2.writeBuf = [] ∧
      ∀ k v, x.2.indexFind k = some v → v.segment.toNat = 0) fs := by
  have hcount : st.count = cfg.segmentCount.toNat := by rw [Store.count, hsc]
  have hn : NamesOk cfg.pre := namesOk_of_length_le hcfg.pre
  have hlt : cfg.segmentCount.toNat < 256 := cfg.segmentCount.toNat_lt
  have hf : Files st.basePrefix st.count fs (cfg.bareLog fs) := by
    rw [hpre, hcount]
    exact hw.files hcfg (.of_none hj)
  have hopen (fs' : FileSystem) (r : Nat) (hr : r < spanOf st.count)
      (ho : OpensSegment st.basePrefix r fs fs') : cfg.Wiped fs' := by
    intro s hs
    rw [spanOf_eq (Config.two_le_count hcfg hsc), hcount] at hr
    rw [hpre] at ho
    by_cases he : s = r
    · subst he
      rw [ho.file, Option.getD_some]
      exact hw s hs
    · rw [ho.frame.file (hn.not_mem (.segment s) (Nat.lt_trans hs hlt) (by simpa using he))]
      exact hw s hs
  obtain ⟨i, hi, hseg⟩ := hl
  refine wp_initIndex_file (E := cfg.lossGuard) hf (by rw [Store.indexName, hpre]; exact hi) hmax
    (fun _ _ ha => ha.elim) (fun c _ => ⟨.inr ⟨hj, hw⟩, i, hi, hseg⟩)
    (fun c fs' r _ hr _ ho => ⟨.inr ⟨?_, ?_⟩, ?_⟩)
    fun st' fs' r ho hr hc hv hb hidx => ⟨?_, hc.pre.trans hpre, hv.trans hvalid, hb.trans hbuf, ?_⟩
  · rw [hpre] at ho
    exact (ho.frame.dir (hn.not_mem .journal trivial (by simp))).trans hj
  · exact hopen fs' r hr ho
  · rw [hpre] at ho
    exact Config.LeadsToFirst.frame ⟨i, hi, hseg⟩ hn ho.frame (by simp)
  · exact hopen fs' r hr ho
  · intro k v hv
    rw [Store.indexFind, hidx, hindex] at hv
    exact hseg k v hv

/-- **Once in the window, all is lost**, however often the start is interrupted. -/
theorem Config.Lost.wp_start (h : cfg.Lost fs) (hcfg : cfg.Ok) (order : IterationOrder) :
    cfg.lossGuard.wp (cfg.start order) (fun st fs' => cfg.Wiped fs' ∧ st.basePrefix = cfg.pre ∧
      st.valid = true ∧ st.writeBuf = [] ∧
      ∀ k v, st.indexFind k = some v → v.segment.toNat = 0) fs := by
  obtain ⟨hpre, hsc⟩ := @Config.configured cfg (Store.new 65536 8 order) hcfg
  have hmild (pre : Path) (c : Call) (fs : FileSystem) (ha : cfg.lossGuard.allowed fs c) :
      Scratch pre fs c := ha.elim
  have hmkdir (p : Path) : cfg.lossGuard.Ok (.mkdir p) fs := ⟨h, id⟩
  rw [Config.start]
  refine Env.wp_seq (Q := fun x fs' => cfg.Wiped fs' ∧ x.2.basePrefix = cfg.pre ∧ x.2.valid = true ∧
    x.2.writeBuf = [] ∧ ∀ k v, x.2.indexFind k = some v → v.segment.toNat = 0)
    (wp_init_configured hmkdir ?_) fun x fs' hx => Env.wp_ret hx
  generalize hst : (Store.new 65536 8 order).configured cfg.pre cfg.segmentSize cfg.segmentCount = st
    at hpre hsc ⊢
  have hmax : st.policyMaxRecs = 0 := by rw [← hst]; rfl
  have hvalid : st.valid = true := by rw [← hst]; rfl
  have hbuf : st.writeBuf = [] := by rw [← hst]; rfl
  have hindex : st.index = ∅ := by rw [← hst]; rfl
  have hcount : st.count = cfg.segmentCount.toNat := by rw [Store.count, hsc]
  have hn : NamesOk cfg.pre := namesOk_of_length_le hcfg.pre
  have hlt : cfg.segmentCount.toNat < 256 := cfg.segmentCount.toNat_lt
  have rest {fs1 : FileSystem} (hw : cfg.Wiped fs1) (hj : fs1.dir (storePath cfg.pre .journal) = none)
      (hl : cfg.LeadsToFirst fs1) := hw.wp_initIndex hcfg hj hl hpre hsc hmax hvalid hbuf hindex
  rw [Store.initFiles, if_neg Bool.false_ne_true]
  refine Env.wp_pure_bind ?_
  obtain ⟨⟨hj, htmp⟩ | ⟨hj, hw⟩, hl⟩ := h
  · rw [← hpre] at hj htmp
    refine Prog.wp_bind.2 (wp_recover_dangling (hcount ▸ hlt) (hmild _) hj htmp (hpre ▸ hn)
      (fun c fs' hf hnone => ⟨.inl ⟨?_, ?_⟩, ?_⟩) fun fs1 hf1 hj1 hgone => ?_)
    · rw [← hpre]
      exact (hf.file ((hpre ▸ hn).not_mem .journal trivial (by simp))).trans hj
    · rw [← hpre]
      exact hnone
    · rw [hpre] at hf
      exact hl.frame hn hf (by simp)
    · rw [Store.journalName, hpre] at hj1
      rw [hpre] at hf1
      refine rest (fun s hs => ?_) hj1 (hl.frame hn hf1 (by simp))
      rw [← hcount] at hs
      rw [← hpre, FileSystem.file_eq_none.2 (hgone s hs)]
      rfl
  · have hset : Settled st.basePrefix fs := .of_none (by rw [hpre]; exact hj)
    have hE : cfg.lossGuard.Reads fs := Env.reads_of (fun _ _ => ⟨.inr ⟨hj, hw⟩, hl⟩) (hmild cfg.pre)
    refine Prog.wp_bind.2 ?_
    rw [Store.recoverIfNeeded]
    refine wp_openRead hE (fun _ => Env.wp_ret (rest hw hj hl)) fun i hi _ => ?_
    rw [Store.journalName, hpre] at hi
    cases hj.symm.trans hi

/-- There is nothing to read in an empty segment. -/
theorem readValue_nil : readValue [] = none := by decide

/-- Interrupted starts bring nothing back. -/
theorem Config.Lost.attempts (h : cfg.Lost fs) (hcfg : cfg.Ok)
    (ha : Prog.Attempts posix (fun _ => True) (fun _ => True) cfg.start fs fs') : cfg.Lost fs' := by
  refine ha.preserve (fun order fs₁ fs₂ h₁ hcut _ => ?_) h
  obtain ⟨_, hinv⟩ := Prog.wp_cut (Config.Lost.wp_start h₁ hcfg order) hcut fun _ _ _ =>
    ⟨trivial, .inl rfl⟩
  exact hinv

/-- What a start that completes is left with. -/
theorem Config.Lost.start (h : cfg.Lost fs) (hcfg : cfg.Ok) (order : IterationOrder) :
    cfg.Wiped (Prog.exec posix (cfg.start order) fs).2 ∧
      ∀ clk key, cfg.getAfter order fs clk key = none := by
  have hexec := Env.exec_of_wp (h.wp_start hcfg order) fun _ _ => trivial
  refine ⟨hexec.1, fun clk key => ?_⟩
  rw [Config.getAfter]
  generalize Prog.exec posix (cfg.start order) fs = s at hexec ⊢
  obtain ⟨hw, hpre, hvalid, hbuf, hseg⟩ := hexec
  by_cases hkey : key.bytes.length ≤ maxKeyLen
  · rw [Env.plain_exec (wp_getValue_fetch (Env.plain_reads s.2) hvalid hbuf hkey)]
    cases hfind : s.1.indexFind key.bytes with
    | none => rfl
    | some e =>
      have hfetch : s.1.fetch s.2 e = none := by
        have hnil := hw 0 (Nat.lt_of_lt_of_le Nat.zero_lt_two (Config.two_le hcfg))
        rw [Store.fetch, hseg _ _ hfind, Store.segmentName, hpre]
        cases hfile : s.2.file (storePath cfg.pre (.segment 0)) with
        | none => rfl
        | some bs =>
          rw [hfile, Option.getD_some] at hnil
          rw [hnil, Option.bind_some, List.drop_nil, readValue_nil]
      rw [Option.filter_some]
      split
      · exact hfetch
      · rfl
  · rw [getValue_of_long hvalid hkey]
    rfl

end window

/-- **Every compaction ends with a window in which a power loss loses everything**: its last call, which
removes the journal, finds `compact.tmp` renamed and the index file rewritten.  With the journal still
there, recovery takes the compaction for unfinished and removes the segments, the first one with the
records among them, before it finds `compact.tmp` missing.  However many starts follow and wherever these
are interrupted, no segment holds a byte afterwards and no `get` succeeds. -/
theorem compaction_crash_window {cfg : Config} (hcfg : cfg.Ok) (order : IterationOrder)
    (commands : List Command) (hc : ∀ c ∈ commands, c.WithinLimits) (fs : FileSystem)
    (hfresh : cfg.Fresh fs)
    (hsmall : ∀ x ∈ Prog.trace posix (cfg.session order commands) fs, cfg.Small x.2) (as : List Answer)
    (st : Store) (fs₁ : FileSystem)
    (hend : Prog.exec posix (cfg.session order commands) fs = ((as, st), fs₁)) (now : UInt32)
    (hsmall' : ∀ x ∈ Prog.trace posix (st.compact now) fs₁, cfg.Small x.2) :
    ∃ x, (Prog.trace posix (st.compact now) fs₁).getLast? = some x ∧
      x.1 = .remove (storePath cfg.pre .journal) ∧ x.2.dir (storePath cfg.pre .tmp) = none ∧
      cfg.LeadsToFirst x.2 ∧ ∀ fs₂,
        Prog.Attempts posix (fun _ => True) (fun _ => True) cfg.start x.2 fs₂ → ∀ order',
          cfg.Wiped (Prog.exec posix (cfg.start order') fs₂).2 ∧
            ∀ clk key, cfg.getAfter order' fs₂ clk key = none := by
  obtain ⟨-, L, hL⟩ := session_reaches hcfg order hc hfresh hsmall
  rw [hend] at hL
  obtain ⟨x, hx, hcall, hwindow⟩ := hL.ends_window hcfg hsmall'
  have hlost : cfg.Lost x.2 := ⟨.inl hwindow.1, hwindow.2⟩
  exact ⟨x, hx, hcall, hwindow.1.2, hwindow.2,
    fun fs₂ ha order' => (hlost.attempts hcfg ha).start hcfg order'⟩

theorem compaction_crash_window_sample :
    ∃ x, (Prog.trace posix (sampleEnd.1.2.compact 0) sampleEnd.2).getLast? = some x ∧
      x.1 = .remove (storePath sampleConfig.pre .journal) ∧
      x.2.dir (storePath sampleConfig.pre .tmp) = none ∧ sampleConfig.LeadsToFirst x.2 ∧ ∀ fs₂,
        Prog.Attempts posix (fun _ => True) (fun _ => True) sampleConfig.start x.2 fs₂ → ∀ order',
          sampleConfig.Wiped (Prog.exec posix (sampleConfig.start order') fs₂).2 ∧
            ∀ clk key, sampleConfig.getAfter order' fs₂ clk key = none :=
  compaction_crash_window sampleConfig_ok .recent sampleCommands
    (by simp [sampleCommands, Command.WithinLimits, Buf.bytes, maxKeyLen, maxValueLen]) .empty
    (fun _ _ => rfl) (by decide +kernel) sampleEnd.1.1 sampleEnd.1.2 sampleEnd.2 rfl 0
    (by decide +kernel)

end MicroStore
