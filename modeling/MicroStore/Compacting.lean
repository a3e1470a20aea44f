import MicroStore.Layout

/-!
# What a compaction does

`compact` is the operation with the most calls, and a power loss may hit any of them.  Here its calls
are taken one after the other: the journal, the copying of the live records to `compact.tmp`, the
removal of the source segments, and the rename that makes the copy segment 0.

## What is here

* `wp_openKeep`, `wp_openWrite`, `wp_remove`, `wp_rename` — the calls that change names, at store files.
* `Rewriting` and `wp_writeJournal` — the journal is cut to nothing and written again, so for one call
  there is an empty journal.
* `wp_writeIndexBulk` — the index file is written anew from the index in memory.
* `Store.copies`, `Store.image` — what a compaction copies of one segment, and of all segments below
  some number.
* `Checkpoint` — the files at any point of a compaction before the commit.  Two numbers tell how far it
  has come: the segments below `n` have been copied, those below `r` have been removed.
* `Underway` and `Output` — the contents of `compact.tmp` at the same time.
* `Midway` — what holds at every single call before the commit.  A power loss is one of these moments.
* `wp_compactLoop` — the loop over the segments leads from checkpoint to checkpoint.

The proofs carry faults along.  Where the journal cannot be written the compaction goes on without one,
so what is said of the journal holds in fault-free runs only, and the rest in any.
-/

set_option autoImplicit false

namespace MicroStore

section calls

variable {E : Env} {β : Type} {fs : FileSystem} {pre : Path}

/-- None of the faults a compaction survives is one of reading. -/
theorem Env.reads_of (hinv : ∀ c : Call, ¬c.logs → E.inv c fs)
    (hmild : ∀ c fs, E.allowed fs c → Scratch pre fs c) : E.Reads fs := by
  intro c hc
  cases c with
  | «open» p mode =>
    cases mode with
    | read => exact ⟨hinv _ id, hmild _ _⟩
    | write | append | readWrite | readAppend => exact hc.elim
  | read | seek | tell | flush | close => exact ⟨hinv _ id, hmild _ _⟩
  | write | remove | rename | mkdir => exact hc.elim

/-- Opening a file that is created when it is missing and kept when it is not. -/
theorem wp_openKeep {a : StoreFile} {mode : Mode} (ha : a.Valid) (hc : mode.creates = true)
    (ht : mode.truncates = false) (hok : E.Ok (.open (storePath pre a) mode) fs)
    {k : File → FsM β} {Q : β → FileSystem → Prop}
    (h : ∀ fs' i, Frame (Names pre (· = a)) fs fs' → fs'.dir (storePath pre a) = some i →
      fs'.data i = (fs.file (storePath pre a)).getD [] → E.rely fs →
      E.wp (k (some ⟨i, 0, mode⟩)) Q fs') :
    E.wp (openFile (storePath pre a) mode >>= k) Q fs := by
  refine Env.wp_call hok.1 hok.2 fun hr => ?_
  cases hd : fs.dir (storePath pre a) with
  | none =>
    have hp : posix (.open (storePath pre a) mode) fs
        = (some ⟨fs.next, 0, mode⟩, fs.create (storePath pre a)) := by
      rw [posix, hd]
      exact if_pos hc
    rw [hp]
    refine h _ _ (Frame.create (mem_names ha rfl)) FileSystem.dir_create_self ?_ hr
    rw [FileSystem.data_create_next, FileSystem.file_eq_none.2 hd, Option.getD_none]
  | some i =>
    have hp : posix (.open (storePath pre a) mode) fs = (some ⟨i, 0, mode⟩, fs) := by
      rw [posix, hd]
      dsimp only
      rw [ht]
      rfl
    rw [hp]
    refine h _ _ (Frame.refl _ _) hd ?_ hr
    rw [FileSystem.file_eq_some hd, Option.getD_some]

/-- Opening a file to write it anew. -/
theorem wp_openWrite {a : StoreFile} (ha : a.Valid)
    (hinv : E.inv (.open (storePath pre a) .write) fs)
    {k : File → FsM β} {Q : β → FileSystem → Prop}
    (h : ∀ fs' i, Frame (Names pre (· = a)) fs fs' → fs'.dir (storePath pre a) = some i →
      fs'.data i = [] → E.wp (k (some ⟨i, 0, .write⟩)) Q fs')
    (hfail : E.allowed fs (.open (storePath pre a) .write) → E.wp (k none) Q fs) :
    E.wp (openFile (storePath pre a) .write >>= k) Q fs := by
  refine Env.wp_call_faulty hinv (fun _ => ?_) fun _ ha => hfail ha
  cases hd : fs.dir (storePath pre a) with
  | none =>
    have hp : posix (.open (storePath pre a) .write) fs
        = (some ⟨fs.next, 0, .write⟩, fs.create (storePath pre a)) := by
      rw [posix, hd]
      rfl
    rw [hp]
    exact h _ _ (Frame.create (mem_names ha rfl)) FileSystem.dir_create_self
      FileSystem.data_create_next
  | some i =>
    have hp : posix (.open (storePath pre a) .write) fs
        = (some ⟨i, 0, .write⟩, fs.setData i []) := by
      rw [posix, hd]
      rfl
    rw [hp]
    exact h _ _ (Frame.setData hd (mem_names ha rfl)) hd FileSystem.data_setData_self

/-- Removing a store file. -/
theorem wp_remove {a : StoreFile} (ha : a.Valid) (hok : E.Ok (.remove (storePath pre a)) fs)
    {k : Bool → FsM β} {Q : β → FileSystem → Prop}
    (h : ∀ fs' b, Frame (Names pre (· = a)) fs fs' → fs'.dir (storePath pre a) = none →
      E.wp (k b) Q fs') :
    E.wp (removeFile (storePath pre a) >>= k) Q fs :=
  Env.wp_call hok.1 hok.2 fun _ =>
    h _ _ (Frame.unlink (mem_names ha rfl)) FileSystem.dir_unlink_self

/-- Renaming a file that is there. -/
theorem wp_rename {a b : StoreFile} {i : Nat} (ha : a.Valid) (hb : b.Valid)
    (hne : storePath pre a ≠ storePath pre b) (hdir : fs.dir (storePath pre a) = some i)
    (hok : E.Ok (.rename (storePath pre a) (storePath pre b)) fs)
    {k : Bool → FsM β} {Q : β → FileSystem → Prop}
    (h : ∀ fs', Frame (Names pre fun x => x = a ∨ x = b) fs fs' →
      fs'.dir (storePath pre a) = none → fs'.dir (storePath pre b) = some i →
      fs'.data = fs.data → E.wp (k true) Q fs') :
    E.wp (renameFile (storePath pre a) (storePath pre b) >>= k) Q fs := by
  refine Env.wp_call hok.1 hok.2 fun _ => ?_
  have hp : posix (.rename (storePath pre a) (storePath pre b)) fs
      = (true, fs.move (storePath pre a) (storePath pre b)) := by
    rw [posix, hdir]
    simp only [Option.isSome_some, if_true, if_neg hne]
    rfl
  rw [hp]
  refine h _ (Frame.move (mem_names ha (.inl rfl)) (mem_names hb (.inr rfl))) ?_ ?_ rfl
  · rw [FileSystem.dir_move, if_neg hne, if_pos rfl]
  · rw [FileSystem.dir_move, if_pos rfl, hdir]

/-- Renaming a file that is missing. -/
theorem wp_rename_missing {p q : Path} (hdir : fs.dir p = none) (hok : E.Ok (.rename p q) fs)
    {k : Bool → FsM β} {Q : β → FileSystem → Prop} (h : E.wp (k false) Q fs) :
    E.wp (renameFile p q >>= k) Q fs := by
  refine Env.wp_call hok.1 hok.2 fun _ => ?_
  have hp : posix (.rename p q) fs = (false, fs) := by
    rw [posix, hdir]
    rfl
  rw [hp]
  exact h

/-! ## The journal

The journal is opened with truncation and written in one call.  Between the two it is empty, and an
empty journal is no journal for recovery. -/

/-- The pending call writes to the journal. -/
def WritesJournal (pre : Path) (c : Call) (fs : FileSystem) : Prop :=
  ∃ f bs, c = .write f bs ∧ fs.dir (storePath pre .journal) = some f.ino

/-- The journal on disk while it is rewritten: the old one, an empty file, or the new one. -/
def Rewriting (pre : Path) (old : Option Bytes) (j : Journal) (c : Call) (fs : FileSystem) : Prop :=
  fs.file (storePath pre .journal) = old ∨
    fs.file (storePath pre .journal) = some [] ∧ WritesJournal pre c fs ∨
    fs.file (storePath pre .journal) = some j.encode

/-- `write_journal` rewrites the journal and nothing else. -/
theorem wp_writeJournal {st : Store} {state : JournalState} {n v : Nat} {j : Journal}
    (hj : j = ⟨journalMagic, UInt32.ofNat state.code, UInt32.ofNat n, UInt32.ofNat v⟩)
    (hmild : ∀ c fs, E.allowed fs c → Scratch st.basePrefix fs c)
    (hinv : ∀ c fs', ¬c.logs → Frame (Names st.basePrefix (· = .journal)) fs fs' →
      (E.Faultless → Rewriting st.basePrefix (fs.file st.journalName) j c fs') → E.inv c fs')
    {Q : Unit → FileSystem → Prop}
    (hQ : ∀ fs', Frame (Names st.basePrefix (· = .journal)) fs fs' →
      (E.Faultless → fs'.file st.journalName = some j.encode) → Q () fs') :
    E.wp (st.writeJournal state n v) Q fs := by
  rw [Store.writeJournal]
  refine wp_openWrite (by exact trivial) (hinv _ _ id (Frame.refl _ _) fun _ => .inl rfl)
    (fun fs1 i hf1 hd1 hnil => ?_)
    fun ha => hQ fs (Frame.refl _ _) fun hno => absurd ha (hno _ _)
  dsimp only
  rw [← hj]
  have hframe (bs : Bytes) : Frame (Names st.basePrefix (· = .journal)) fs (fs1.setData i bs) :=
    hf1.trans (Frame.setData hd1 (mem_names trivial rfl))
  have hwrite : E.inv (.write ⟨i, 0, .write⟩ j.encode) fs1 := by
    refine hinv _ _ (by simp [Call.logs, Mode.appends]) hf1 fun _ => .inr (.inl ⟨?_, ?_⟩)
    · rw [FileSystem.file_eq_some hd1, hnil]
    · exact ⟨_, _, rfl, hd1⟩
  -- the state after the write, whatever has got through
  have after (f : Handle) (bs : Bytes) (hbs : E.Faultless → bs = j.encode) :
      E.wp (do f.flush; f.close) Q (fs1.setData i bs) := by
    have hfile : E.Faultless → (fs1.setData i bs).file st.journalName = some j.encode := by
      intro hno
      rw [FileSystem.file_eq_some (show (fs1.setData i bs).dir st.journalName = some i from hd1),
        FileSystem.data_setData_self, hbs hno]
    refine Env.wp_call (hinv _ _ id (hframe bs) fun hno => .inr (.inr (hfile hno)))
      (hmild _ _) fun _ => ?_
    exact Env.wp_last (hinv _ _ id (hframe bs) fun hno => .inr (.inr (hfile hno))) (hmild _ _)
      fun _ => hQ _ (hframe bs) hfile
  have hend : Handle.AtEnd ⟨i, 0, .write⟩ fs1 := .inr ⟨rfl, by rw [hnil]; rfl⟩
  refine Env.wp_call_faulty hwrite (fun _ => ?_) fun m ha => ?_
  · rw [posix_write hend, hnil, List.nil_append]
    exact after _ _ fun _ => rfl
  · rw [failing, posix_write hend, hnil, List.nil_append]
    exact after _ _ fun hno => absurd ha (hno _ _)

end calls

/-! ## The index file

The bulk write goes over the index in the order of iteration, whatever that is; the entries have
different keys, so the order does not matter to what they lead to. -/

section index

variable {E : Env} {fs : FileSystem} {st : Store}

/-- The chunks of an entry are its bytes. -/
theorem entryFields_flatten (e : IndexEntry) :
    (entryFields e.key e.seg.toNat e.off.toNat e.ts.toNat e.ttl.toNat e.priority).flatten
      = e.bytes := by
  simp [entryFields, IndexEntry.bytes]

/-- The same for an entry of the index in memory. -/
theorem itemFields_flatten {it : IndexItem} (h : it.1.length ≤ maxKeyLen) :
    (entryFields it.1 it.2.segment.toNat it.2.offset.toNat it.2.timestamp.toNat it.2.ttl.toNat
      it.2.priority).flatten = (itemEntry it h).bytes := by
  have hflat := entryFields_flatten (itemEntry it h)
  rwa [itemEntry_seg, itemEntry_off, itemEntry_ttl] at hflat

/-- The entries of a bulk rewrite. -/
def bulkEntries (items : List IndexItem) (h : ∀ it ∈ items, it.1.length ≤ maxKeyLen) :
    List IndexEntry :=
  items.pmap itemEntry h

/-- Every round appends an entry. -/
theorem wp_bulkLoop {items : List IndexItem} (hkeys : ∀ it ∈ items, it.1.length ≤ maxKeyLen)
    {f : Handle} (hmode : f.mode = .append)
    (hinv : ∀ (f' : Handle) (x bs : Bytes), f'.ino = f.ino → f'.mode = .append →
      E.inv (.write f' bs) (fs.setData f.ino (fs.data f.ino ++ x)))
    (hfault : ∀ (f' : Handle) (x bs : Bytes), f'.ino = f.ino →
      ¬E.allowed (fs.setData f.ino (fs.data f.ino ++ x)) (.write f' bs))
    {Q : Handle → FileSystem → Prop}
    (hQ : ∀ f' : Handle, f'.ino = f.ino → f'.mode = .append →
      Q f' (fs.setData f.ino (fs.data f.ino ++ entriesBytes (bulkEntries items hkeys)))) :
    E.wp (Store.bulkLoop items f) Q fs := by
  induction items generalizing fs f with
  | nil =>
    have h := hQ f rfl hmode
    simp only [bulkEntries, List.pmap_nil, entriesBytes, List.flatMap_nil, List.append_nil,
      FileSystem.setData_data] at h
    exact h
  | cons it items ih =>
    obtain ⟨key, v⟩ := it
    have hkey : key.length ≤ maxKeyLen := hkeys ⟨key, v⟩ List.mem_cons_self
    rw [Store.bulkLoop]
    refine Prog.wp_bind.2 (wp_writeAll_ok (.inl (by rw [hmode]; rfl))
      (fun f' x bs hi hm _ => hinv f' x bs hi (hm.trans hmode)) hfault fun f' hi hm _ => ?_)
    rw [@itemFields_flatten ⟨key, v⟩ hkey]
    generalize hb : (itemEntry ⟨key, v⟩ hkey).bytes = b
    have hdata : (fs.setData f.ino (fs.data f.ino ++ b)).data f'.ino = fs.data f.ino ++ b := by
      rw [hi]
      exact FileSystem.data_setData_self
    refine ih (fun it hit => hkeys it (List.mem_cons_of_mem _ hit)) (hm.trans hmode) ?_ ?_ ?_
    · intro f'' x bs hi' hm'
      rw [hdata, hi, FileSystem.setData_setData, List.append_assoc]
      exact hinv f'' _ bs (hi'.trans hi) hm'
    · intro f'' x bs hi'
      rw [hdata, hi, FileSystem.setData_setData, List.append_assoc]
      exact hfault f'' _ bs (hi'.trans hi)
    · intro f'' hi' hm'
      rw [hdata, hi, FileSystem.setData_setData, List.append_assoc, ← hb]
      exact hQ f'' (hi'.trans hi) hm'

/-- A handle on the index file is not on a scratch file. -/
theorem not_scratch_index (hn : NamesOk st.basePrefix) {f : Handle} {bs : Bytes}
    (hdir : fs.dir st.indexName = some f.ino) : ¬Scratch st.basePrefix fs (.write f bs) := by
  rintro (h | ⟨h, -⟩)
  · exact hn.ne (a := .journal) trivial (b := .index) trivial (by simp) (fs.inj h hdir)
  · exact hn.ne (a := .tmp) trivial (b := .index) trivial (by simp) (fs.inj h hdir)

/-- `write_index_bulk` into a missing index file puts down the entries of the index. -/
theorem wp_writeIndexBulk (hn : NamesOk st.basePrefix)
    (hkeys : ∀ it ∈ st.items, it.1.length ≤ maxKeyLen) (hnone : fs.dir st.indexName = none)
    (hmild : ∀ c fs, E.allowed fs c → Scratch st.basePrefix fs c)
    (hinv : ∀ c fs', Frame (Names st.basePrefix (· = .index)) fs fs' → E.inv c fs')
    {Q : Bool → FileSystem → Prop}
    (hQ : ∀ fs', Frame (Names st.basePrefix (· = .index)) fs fs' →
      fs'.file st.indexName = some (entriesBytes (bulkEntries st.items hkeys)) → Q true fs') :
    E.wp st.writeIndexBulk Q fs := by
  rw [Store.writeIndexBulk]
  refine wp_openKeep (a := .index) trivial rfl rfl ⟨hinv _ _ (Frame.refl _ _), hmild _ _⟩
    fun fs1 i hf1 hd1 hdata _ => ?_
  rw [FileSystem.file_eq_none.2 hnone, Option.getD_none] at hdata
  have hframe (x : Bytes) : Frame (Names st.basePrefix (· = .index)) fs (fs1.setData i x) :=
    hf1.trans (Frame.setData hd1 (mem_names (by exact trivial) rfl))
  dsimp only
  refine Prog.wp_bind.2 (wp_bulkLoop hkeys rfl (fun f x bs _ _ => hinv _ _ (hframe _)) ?_ ?_)
  · intro f x bs hi ha
    refine not_scratch_index hn ?_ (hmild _ _ ha)
    rw [hi]
    exact hd1
  · intro f hi _
    dsimp only
    rw [hdata, List.nil_append]
    have hE := Env.reads_of (fun c _ => hinv c _ (hframe (entriesBytes (bulkEntries st.items hkeys))))
      hmild
    refine wp_flush hE (wp_close hE (Env.wp_ret (hQ _ (hframe _) ?_)))
    rw [FileSystem.file_eq_some (show (fs1.setData i _).dir st.indexName = some i from hd1),
      FileSystem.data_setData_self]

/-- `open_index_for_append` on an index file that is there. -/
theorem wp_openIndexForAppend {ix : Bytes} (hfile : fs.file st.indexName = some ix)
    (hok : E.Ok (.open st.indexName .append) fs) {Q : Store → FileSystem → Prop}
    (hQ : ∀ i, fs.dir st.indexName = some i →
      Q { st with indexFile := some ⟨i, 0, .append⟩ } fs) :
    E.wp st.openIndexForAppend Q fs := by
  obtain ⟨i, hi, -⟩ := Option.map_eq_some_iff.1 hfile
  rw [Store.openIndexForAppend]
  refine Env.wp_call hok.1 hok.2 fun _ => ?_
  have hp : posix (.open st.indexName .append) fs = (some ⟨i, 0, .append⟩, fs) := by
    rw [posix, hi]
    rfl
  rw [hp]
  exact hQ i hi

end index

/-! ## Underway records

The copy loop reads each live record of the segment again and writes it to `compact.tmp`.  A record
that cannot be read is skipped, and one whose TTL is over is dropped. -/

/-- The records that the copy loop finds at these offsets. -/
def copied (offs : List Nat) (bs : Bytes) : List Record :=
  offs.filterMap fun off => readRecord (bs.drop off)

section copying

variable {E : Env} {fs : FileSystem} {pre : Path}

/-- The chunks the loop writes of a record are its bytes. -/
theorem flatten_chunks (r : Record) :
    ([r.hdr.encode, r.key] ++ (if r.hdr.length ≠ 0 then [r.value] else []) ++
      [commitBytes]).flatten = r.bytes := by
  split
  · simp [Record.bytes]
  · next h =>
    have hnil : r.value = [] := by
      have hlen := r.length_eq
      rw [not_not.1 h] at hlen
      exact List.length_eq_zero_iff.1 hlen.symm
    simp [Record.bytes, hnil]

/-- The part of the copy loop that reads: it goes on at once, or it has a whole record to write. -/
theorem wp_copyRecords_cons (hE : E.Reads fs) {off : Nat} {offs : List Nat} {src outf : Handle}
    (hsrc : src.mode.canRead = true) {Q : Bool × Handle × Handle → FileSystem → Prop}
    (skip : readRecord ((fs.data src.ino).drop off) = none → ∀ src' : Handle, src'.ino = src.ino →
      src'.mode = src.mode → E.wp (copyRecords offs src' outf) Q fs)
    (write : ∀ r, readRecord ((fs.data src.ino).drop off) = some r → ∀ src' : Handle,
      src'.ino = src.ino → src'.mode = src.mode → E.wp (do
        let x ← outf.writeAll ([r.hdr.encode, r.key] ++
          (if r.hdr.length ≠ 0 then [r.value] else []) ++ [commitBytes])
        if x.1 ≠ headerSize + r.hdr.keyLen.toNat + r.hdr.length.toNat + commitSize then
          pure (false, src', x.2)
        else copyRecords offs src' x.2) Q fs) :
    E.wp (copyRecords (off :: offs) src outf) Q fs := by
  rw [copyRecords]
  refine wp_seekSet hE ?_
  generalize hbs : (fs.data src.ino).drop off = bs at skip write
  have hrest0 : Handle.rest { src with pos := off } fs = bs := hbs
  refine wp_readExact hE (by exact hsrc) (fun h x hi hm => ?_) fun h1 f1 hi1 hm1 hr1 => ?_
  · rw [hrest0] at h
    exact skip (readRecord_eq_none rfl fun hc => absurd hc.1 (Nat.not_le.2 h)) _ hi hm
  dsimp only at hi1 hm1
  rw [hrest0] at h1 hr1 ⊢
  generalize hhdr : RecordHeader.decode (bs.take headerSize) = hdr
  dsimp only
  split
  · next h2 =>
    refine skip (readRecord_eq_none hhdr fun hc => ?_) _ hi1 hm1
    rcases h2 with h2 | h2 | h2
    · exact h2 hc.2.1
    · exact absurd h2 (Nat.not_lt.2 hc.2.2.2.2.1)
    · exact absurd h2 (Nat.not_lt.2 hc.2.2.2.2.2)
  next h2 =>
  simp only [not_or, not_not, Nat.not_lt] at h2
  obtain ⟨hmagic, hkeyLen, hvalueLen⟩ := h2
  refine wp_readExact hE (by rw [hm1]; exact hsrc) (fun h x hi hm => ?_)
    fun h3 f2 hi2 hm2 hr2 => ?_
  · rw [hr1] at h
    refine skip (readRecord_eq_none hhdr fun hc => ?_) _ (hi.trans hi1) (hm.trans hm1)
    have hkey := hc.2.2.1
    rw [List.length_take] at hkey
    omega
  rw [hr1] at h3 hr2 ⊢
  rw [List.drop_drop] at hr2
  have hkey : hdr.keyLen.toNat = ((bs.drop headerSize).take hdr.keyLen.toNat).length := by
    rw [List.length_take]
    omega
  split
  · refine wp_readExact hE (by rw [hm2, hm1]; exact hsrc) (fun h x hi hm => ?_)
      fun h4 f3 hi3 hm3 _ => ?_
    · rw [hr2] at h
      refine skip (readRecord_eq_none hhdr fun hc => ?_) _ (hi.trans (hi2.trans hi1)) (hm.trans (hm2.trans hm1))
      have hval := hc.2.2.2.1
      rw [List.length_take] at hval
      omega
    dsimp only at hi3 hm3
    rw [hr2] at h4 ⊢
    have hval : hdr.length.toNat
        = ((bs.drop (headerSize + hdr.keyLen.toNat)).take hdr.length.toNat).length := by
      rw [List.length_take]
      omega
    obtain ⟨r, hr, hrh, hrk, hrv⟩ :=
      readRecord_eq_some hhdr ⟨h1, hmagic, hkey, hval, hkeyLen, hvalueLen⟩
    have hw := write r hr f3 (hi3.trans (hi2.trans hi1)) (hm3.trans (hm2.trans hm1))
    rw [hrh, hrk, hrv, if_pos ‹_›] at hw
    exact hw
  · next hlen =>
    rw [not_not] at hlen
    have hval : hdr.length.toNat
        = ((bs.drop (headerSize + hdr.keyLen.toNat)).take hdr.length.toNat).length := by
      rw [hlen]
      rfl
    obtain ⟨r, hr, hrh, hrk, -⟩ :=
      readRecord_eq_some hhdr ⟨h1, hmagic, hkey, hval, hkeyLen, hvalueLen⟩
    have hw := write r hr f2 (hi2.trans hi1) (hm2.trans hm1)
    rw [hrh, hrk, if_neg (not_not.2 hlen)] at hw
    refine Env.wp_pure_bind ?_
    rw [if_neg (not_not.2 (by rw [hlen]; rfl))]
    exact hw

/-- The copy loop appends the records it finds to `compact.tmp`. -/
theorem wp_copyRecords {F : Prop} {offs : List Nat} {src outf : Handle}
    (hsrc : src.mode.canRead = true) (hne : src.ino ≠ outf.ino) (hout : outf.mode = .write)
    (hpos : outf.pos = (fs.data outf.ino).length)
    (hmild : ∀ c fs, E.allowed fs c → Scratch pre fs c)
    (hinv : ∀ x c, ¬c.logs → x <+: recordsBytes (copied offs (fs.data src.ino)) ∨ F →
      E.inv c (fs.setData outf.ino (fs.data outf.ino ++ x)))
    (hfault : ∀ (f : Handle) (x bs : Bytes), f.ino = outf.ino →
      E.allowed (fs.setData outf.ino (fs.data outf.ino ++ x)) (.write f bs) → F)
    {Q : Bool × Handle × Handle → FileSystem → Prop}
    (hQ : ∀ src' outf' : Handle, outf'.ino = outf.ino → outf'.mode = .write →
      outf'.pos = (fs.data outf.ino ++ recordsBytes (copied offs (fs.data src.ino))).length →
      Q (true, src', outf')
        (fs.setData outf.ino (fs.data outf.ino ++ recordsBytes (copied offs (fs.data src.ino)))))
    (hQf : F → ∀ src' outf' x, Q (false, src', outf')
      (fs.setData outf.ino (fs.data outf.ino ++ x))) :
    E.wp (copyRecords offs src outf) Q fs := by
  induction offs generalizing src outf fs with
  | nil =>
    have h := hQ src outf rfl hout (by simpa [copied] using hpos)
    exact Env.wp_ret (by simpa [copied] using h)
  | cons off offs ih =>
    have hE : E.Reads fs := Env.reads_of
      (fun c hc => by simpa using hinv [] c hc (.inl List.nil_prefix)) hmild
    -- a record that cannot be read is skipped
    have skip (hnone : readRecord ((fs.data src.ino).drop off) = none) (src' : Handle)
        (hi : src'.ino = src.ino) (hm : src'.mode = src.mode) :
        E.wp (copyRecords offs src' outf) Q fs := by
      have hc : copied (off :: offs) (fs.data src.ino) = copied offs (fs.data src.ino) :=
        List.filterMap_cons_none hnone
      rw [hc] at hinv hQ
      refine ih (by rw [hm]; exact hsrc) (by rw [hi]; exact hne) hout hpos ?_ hfault ?_ hQf
      · rw [hi]
        exact hinv
      · rw [hi]
        exact hQ
    -- a record that can be read is written behind the others
    have write (r : Record) (hsome : readRecord ((fs.data src.ino).drop off) = some r)
        (src' : Handle) (hi : src'.ino = src.ino) (hm : src'.mode = src.mode) :
        E.wp (do
          let x ← outf.writeAll ([r.hdr.encode, r.key] ++
            (if r.hdr.length ≠ 0 then [r.value] else []) ++ [commitBytes])
          if x.1 ≠ headerSize + r.hdr.keyLen.toNat + r.hdr.length.toNat + commitSize then
            pure (false, src', x.2)
          else copyRecords offs src' x.2) Q fs := by
      have hc : copied (off :: offs) (fs.data src.ino) = r :: copied offs (fs.data src.ino) :=
        List.filterMap_cons_some hsome
      have hsize : headerSize + r.hdr.keyLen.toNat + r.hdr.length.toNat + commitSize
          = r.bytes.length := by
        rw [r.length_bytes, r.keyLen_eq, r.length_eq, Record.size]
      rw [hsize]
      refine Prog.wp_bind.2 (wp_writeAll (.inr ⟨by rw [hout]; rfl, hpos⟩) ?_ hfault ?_)
      · intro f' x bs _ hmode hx
        refine hinv x _ ?_ (hx.imp_left fun hx => ?_)
        · rw [Call.logs, hmode, hout]
          decide
        · rw [flatten_chunks] at hx
          rw [hc, recordsBytes_cons]
          exact ((List.prefix_append x bs).trans hx).trans (List.prefix_append _ _)
      · intro f' x hi' hm' hend hx
        rw [flatten_chunks] at hx
        dsimp only
        rcases hx with rfl | ⟨hF, hlt⟩
        · rw [if_neg (not_not.2 rfl)]
          have hsrc' : (fs.setData outf.ino (fs.data outf.ino ++ r.bytes)).data src'.ino
              = fs.data src.ino := by
            rw [hi]
            exact if_neg hne
          have hout' : (fs.setData outf.ino (fs.data outf.ino ++ r.bytes)).data f'.ino
              = fs.data outf.ino ++ r.bytes := by
            rw [hi']
            exact FileSystem.data_setData_self
          refine ih (by rw [hm]; exact hsrc) (by rw [hi, hi']; exact hne) (hm'.trans hout) ?_ ?_ ?_
            ?_ ?_
          · rcases hend with h | h
            · rw [hm', hout] at h
              cases h
            · exact h.2
          · intro x c hlog hx
            rw [hout', hi', FileSystem.setData_setData, List.append_assoc]
            refine hinv _ c hlog (hx.imp_left fun hx => ?_)
            rw [hsrc'] at hx
            rw [hc, recordsBytes_cons]
            exact (List.prefix_append_right_inj _).2 hx
          · intro f x bs hf ha
            rw [hout', hi', FileSystem.setData_setData, List.append_assoc] at ha
            exact hfault f _ bs (hf.trans hi') ha
          · rw [hout', hsrc', hi']
            simp only [FileSystem.setData_setData, List.append_assoc]
            rw [hc, recordsBytes_cons] at hQ
            exact hQ
          · intro hF src' outf' x
            rw [hout', hi', FileSystem.setData_setData, List.append_assoc]
            exact hQf hF _ _ _
        · rw [if_pos (Nat.ne_of_lt hlt)]
          exact Env.wp_ret (hQf hF _ _ _)
    exact wp_copyRecords_cons hE hsrc skip write

end copying

/-! ## The checkpoints of a compaction

Removal lags behind copying by a segment at most, so at every moment each live record is in its
source segment or in `compact.tmp`, or in both. -/

namespace Store

/-- The records a compaction copies from segment `s`. -/
def copies (st : Store) (L : Log) (now : UInt32) (s : Nat) : List Record :=
  match L.segs s with
  | none => []
  | some g => copied (st.liveOffsets now s) g.bytes

/-- The records a compaction copies from the segments below `n`. -/
def image (st : Store) (L : Log) (now : UInt32) : Nat → List Record
  | 0 => []
  | n + 1 => st.image L now n ++ st.copies L now n

/-- The journal that records the segments below `n` as copied. -/
def journalAt (st : Store) (L : Log) (now : UInt32) (n : Nat) : Journal :=
  ⟨journalMagic, UInt32.ofNat JournalState.compacting.code, UInt32.ofNat n,
    UInt32.ofNat (recordsBytes (st.image L now n)).length⟩

end Store

/-- The files in the middle of a compaction of `fs₀`: the segments below `n` have been copied to
`compact.tmp`, those below `r` have been removed. -/
structure Checkpoint (st : Store) (L : Log) (now : UInt32) (fs₀ : FileSystem) (n r : Nat)
    (fs : FileSystem) : Prop where
  /-- Nothing else has changed. -/
  frame : Frame (Names st.basePrefix fun a => a.scratch ∨ ∃ s < r, a = .segment s) fs₀ fs
  /-- The removed segments are gone. -/
  gone : ∀ s < r, fs.dir (st.segmentName s) = none
  /-- A segment is copied before it is removed. -/
  le : r ≤ n ∧ n ≤ st.count
  /-- The copies stand in `compact.tmp`, perhaps with something behind them. -/
  tmp : 0 < n → ∃ i x, fs.dir st.tmpName = some i ∧
    fs.data i = recordsBytes (st.image L now n) ++ x

/-- Behind the copies of the segments below `n` stands a beginning of the copies of segment `n`. -/
def Underway (st : Store) (L : Log) (now : UInt32) (n : Nat) (fs : FileSystem) : Prop :=
  ∃ i x, fs.dir st.tmpName = some i ∧ fs.data i = recordsBytes (st.image L now n) ++ x ∧
    x <+: recordsBytes (st.copies L now n)

/-- The state in which a call before the commit is made: some checkpoint, with the journal that
says so, or with a journal that is just being rewritten, and with what is in `compact.tmp` if no write
has fallen short. -/
def Midway (E : Env) (st : Store) (L : Log) (now : UInt32) (fs₀ : FileSystem) (c : Call)
    (fs : FileSystem) : Prop :=
  ∃ n r, Checkpoint st L now fs₀ n r fs ∧
    (E.Faultless → (fs.file st.journalName = some (st.journalAt L now n).encode ∨
      fs.file st.journalName = some [] ∧ WritesJournal st.basePrefix c fs ∨
      n = 0 ∧ Settled st.basePrefix fs) ∧ (0 < n → Underway st L now n fs))

/-- `compact.tmp` holds these records, and the handle is at its end. -/
structure Output (st : Store) (rs : List Record) (outf : Handle) (fs : FileSystem) : Prop where
  /-- It was opened with truncation. -/
  mode : outf.mode = .write
  /-- It is on the file of this name. -/
  dir : fs.dir st.tmpName = some outf.ino
  /-- That file holds the records. -/
  data : fs.data outf.ino = recordsBytes rs
  /-- The next write goes behind them. -/
  pos : outf.pos = (recordsBytes rs).length

/-- The copies of the segments below `n` stand in `compact.tmp`. -/
theorem Output.complete {st : Store} {L : Log} {now : UInt32} {n : Nat} {outf : Handle}
    {fs : FileSystem} (h : Output st (st.image L now n) outf fs) : Underway st L now n fs :=
  ⟨outf.ino, [], h.dir, by rw [h.data, List.append_nil], List.nil_prefix⟩

/-- Those of segment `n` do so, too. -/
theorem Output.underway_of_succ {st : Store} {L : Log} {now : UInt32} {n : Nat} {outf : Handle}
    {fs : FileSystem} (h : Output st (st.image L now (n + 1)) outf fs) : Underway st L now n fs :=
  ⟨outf.ino, _, h.dir, h.data.trans (recordsBytes_append _ _), List.prefix_refl _⟩

/-- What is underway stays so if nothing touches `compact.tmp`. -/
theorem Underway.frame {st : Store} {L : Log} {now : UInt32} {n : Nat} {fs fs' : FileSystem}
    {S : Path → Prop} (h : Underway st L now n fs) (hf : Frame S fs fs') (hS : ¬S st.tmpName) :
    Underway st L now n fs' := by
  obtain ⟨i, x, hi, hdata, hx⟩ := h
  exact ⟨i, x, (hf.dir hS).trans hi, (hf.data hS hi).trans hdata, hx⟩

theorem Output.frame {st : Store} {rs : List Record} {outf : Handle} {fs fs' : FileSystem}
    {S : Path → Prop} (h : Output st rs outf fs) (hf : Frame S fs fs') (hS : ¬S st.tmpName) :
    Output st rs outf fs' :=
  { h with
    dir := (hf.dir hS).trans h.dir
    data := (hf.data hS h.dir).trans h.data }

namespace Checkpoint

variable {st : Store} {L : Log} {now : UInt32} {fs₀ fs fs' : FileSystem} {n r : Nat}

/-- Before the first segment is copied. -/
theorem start (hf : Frame (Names st.basePrefix StoreFile.scratch) fs₀ fs) :
    Checkpoint st L now fs₀ 0 0 fs where
  frame := hf.mono fun p hp => hp.mono (fun _ => .inl) p
  gone s hs := absurd hs (Nat.not_lt_zero s)
  le := ⟨Nat.le_refl _, Nat.zero_le _⟩
  tmp hn := absurd hn (Nat.lt_irrefl 0)

/-- The journal may be rewritten. -/
theorem journal (h : Checkpoint st L now fs₀ n r fs) (hn : NamesOk st.basePrefix)
    (hlt : st.count < 256) (hf : Frame (Names st.basePrefix (· = .journal)) fs fs') :
    Checkpoint st L now fs₀ n r fs' where
  frame := h.frame.trans (hf.mono fun p hp => hp.mono (fun a ha => .inl (ha ▸ trivial)) p)
  gone s hs := by
    have hs' : s < 256 := by
      have := h.le
      omega
    exact (hf.dir (hn.not_mem (.segment s) hs' (by simp))).trans (h.gone s hs)
  le := h.le
  tmp hpos := by
    have htmp := hn.not_mem (S := (· = .journal)) .tmp trivial (by simp)
    obtain ⟨i, x, hi, hx⟩ := h.tmp hpos
    exact ⟨i, x, (hf.dir htmp).trans hi, (hf.data htmp hi).trans hx⟩

/-- More may be written to `compact.tmp`. -/
theorem write (h : Checkpoint st L now fs₀ n r fs) {i : Nat} (hi : fs.dir st.tmpName = some i)
    (x : Bytes) : Checkpoint st L now fs₀ n r (fs.setData i (fs.data i ++ x)) where
  frame := h.frame.trans (Frame.setData hi (mem_names (by exact trivial) (.inl trivial)))
  gone := h.gone
  le := h.le
  tmp hpos := by
    obtain ⟨j, y, hj, hy⟩ := h.tmp hpos
    obtain rfl : i = j := Option.some.inj (hi.symm.trans hj)
    exact ⟨i, y ++ x, hi, by rw [FileSystem.data_setData_self, hy, List.append_assoc]⟩

/-- The copies of one more segment are complete. -/
theorem advance (h : Checkpoint st L now fs₀ n r fs) {m : Nat} (hm : n ≤ m) (hm' : m ≤ st.count)
    {outf : Handle} (hout : Output st (st.image L now m) outf fs) :
    Checkpoint st L now fs₀ m r fs :=
  { h with
    le := ⟨Nat.le_trans h.le.1 hm, hm'⟩
    tmp := fun _ => ⟨outf.ino, [], hout.dir, by rw [hout.data, List.append_nil]⟩ }

/-- The next segment may be removed once its copies are complete. -/
theorem remove (h : Checkpoint st L now fs₀ n r fs) (hn : NamesOk st.basePrefix)
    (hlt : st.count < 256) (hr : r < n)
    (hf : Frame (Names st.basePrefix (· = .segment r)) fs fs')
    (hgone : fs'.dir (st.segmentName r) = none) : Checkpoint st L now fs₀ n (r + 1) fs' where
  frame := by
    refine (h.frame.mono fun p hp => hp.mono (fun a ha => ?_) p).trans
      (hf.mono fun p hp => hp.mono (fun a ha => .inr ⟨r, Nat.lt_succ_self r, ha⟩) p)
    exact ha.imp_right fun ⟨s, hs, he⟩ => ⟨s, Nat.lt_succ_of_lt hs, he⟩
  gone s hs := by
    rcases Nat.lt_succ_iff_lt_or_eq.1 hs with hs | rfl
    · have hs' : s < 256 := by
        have := h.le
        omega
      refine (hf.dir (hn.not_mem (.segment s) hs' fun he => ?_)).trans (h.gone s hs)
      exact absurd (StoreFile.segment.inj he) (Nat.ne_of_lt hs)
    · exact hgone
  le := ⟨hr, h.le.2⟩
  tmp hpos := by
    have htmp := hn.not_mem (S := (· = .segment r)) .tmp trivial (by simp)
    obtain ⟨i, x, hi, hx⟩ := h.tmp hpos
    exact ⟨i, x, (hf.dir htmp).trans hi, (hf.data htmp hi).trans hx⟩

/-- The segments from `r` on are as they were. -/
theorem segment (h : Checkpoint st L now fs₀ n r fs) (hd : Disk st.basePrefix st.count fs₀ L)
    {s : Nat} (hs : s < st.count) (hr : r ≤ s) :
    fs.file (st.segmentName s) = (L.segs s).map Segment.bytes := by
  rw [← hd.segs s (Nat.lt_of_lt_of_le hs (le_spanOf _))]
  refine h.frame.file (hd.names.not_mem (.segment s) (Nat.lt_trans hs hd.lt) ?_)
  rintro (hc | ⟨s', hs', he⟩)
  · exact hc
  · have := StoreFile.segment.inj he
    omega

end Checkpoint

section loop

variable {E : Env} {st : Store} {L : Log} {now : UInt32} {fs₀ : FileSystem}

/-- The segment loop copies all live records and removes all segments, or fails at segment 0 with
nothing removed. -/
theorem wp_compactLoop (hd : Disk st.basePrefix st.count fs₀ L)
    (hmild : ∀ c fs, E.allowed fs c → Scratch st.basePrefix fs c)
    (hinv : ∀ c fs, ¬c.logs → Midway E st L now fs₀ c fs → E.inv c fs)
    {n s : Nat} (hs : s + n = st.count) {fs : FileSystem} {outf : Handle}
    (hcp : Checkpoint st L now fs₀ s s fs)
    (hj : E.Faultless → fs.file st.journalName = some (st.journalAt L now s).encode)
    (hout : Output st (st.image L now s) outf fs)
    {Q : Bool × Nat × Handle → FileSystem → Prop}
    (hQ : ∀ outf' fs', Checkpoint st L now fs₀ st.count st.count fs' →
      (E.Faultless → fs'.file st.journalName = some (st.journalAt L now st.count).encode) →
      Output st (st.image L now st.count) outf' fs' → Q (true, st.count, outf') fs')
    (hQf : ¬E.Faultless → ∀ outf' fs', Checkpoint st L now fs₀ 0 0 fs' →
      Q (false, 0, outf') fs') :
    E.wp (st.compactLoop now n s outf) Q fs := by
  induction n generalizing s fs outf with
  | zero =>
    obtain rfl : s = st.count := hs
    exact Env.wp_ret (hQ outf fs hcp hj hout)
  | succ n ih =>
    have hlt : s < st.count := by omega
    have hs256 : s < 256 := Nat.lt_trans hlt hd.lt
    -- once the copies of segment `s` are complete, it is journaled and removed
    have next (outf : Handle) (fs : FileSystem) (hcp : Checkpoint st L now fs₀ s s fs)
        (hj : E.Faultless → fs.file st.journalName = some (st.journalAt L now s).encode)
        (hout : Output st (st.image L now (s + 1)) outf fs) :
        E.wp (do
          outf.flush
          let validSize ← outf.tell
          st.writeJournal .compacting (s + 1) validSize
          let _ ← removeFile (st.segmentName s)
          st.compactLoop now n (s + 1) outf) Q fs := by
      have hpart : Underway st L now s fs := hout.underway_of_succ
      have hat (c : Call) (hc : ¬c.logs) : E.inv c fs :=
        hinv c fs hc ⟨s, s, hcp, fun hno => ⟨.inl (hj hno), fun _ => hpart⟩⟩
      refine Env.wp_call (hat _ id) (hmild _ _) fun _ => ?_
      refine Env.wp_call (hat _ id) (hmild _ _) fun _ => ?_
      change E.wp (st.writeJournal .compacting (s + 1) outf.pos >>= _) Q fs
      refine Env.wp_seq (Q := fun _ fs' => Frame (Names st.basePrefix (· = .journal)) fs fs' ∧
        (E.Faultless → fs'.file st.journalName = some (st.journalAt L now (s + 1)).encode))
        (wp_writeJournal (j := st.journalAt L now (s + 1)) (by rw [hout.pos]; rfl) hmild ?_
          fun fs' hf hj' => ⟨hf, hj'⟩) ?_
      · intro c fs' hc hf hrw
        have hcp' := hcp.journal hd.names hd.lt hf
        have htmp := hd.names.not_mem (S := (· = .journal)) .tmp trivial (by simp)
        have hpart' := hpart.frame hf htmp
        by_cases hno : E.Faultless
        · rcases hrw hno with h | h | h
          · exact hinv c fs' hc ⟨s, s, hcp', fun _ => ⟨.inl (h.trans (hj hno)), fun _ => hpart'⟩⟩
          · exact hinv c fs' hc ⟨s, s, hcp', fun _ => ⟨.inr (.inl h), fun _ => hpart'⟩⟩
          · have hout' := hout.frame hf htmp
            exact hinv c fs' hc ⟨s + 1, s, hcp'.advance (Nat.le_succ s) hlt hout',
              fun _ => ⟨.inl h, fun _ => hout'.complete⟩⟩
        · exact hinv c fs' hc ⟨s, s, hcp', fun h => absurd h hno⟩
      · rintro - fs' ⟨hf, hj'⟩
        have hout' := hout.frame hf (hd.names.not_mem .tmp trivial (by simp))
        have hcp' := (hcp.journal hd.names hd.lt hf).advance (Nat.le_succ s) hlt hout'
        refine wp_remove (a := .segment s) hs256 ⟨hinv _ _ id ⟨s + 1, s, hcp', fun hno =>
          ⟨.inl (hj' hno), fun _ => hout'.complete⟩⟩, hmild _ _⟩ fun fs'' b hf' hgone => ?_
        refine ih (by omega) (hcp'.remove hd.names hd.lt (Nat.lt_succ_self s) hf' hgone) ?_ ?_
        · intro hno
          exact (hf'.file (hd.names.not_mem .journal trivial (by simp))).trans (hj' hno)
        · exact hout'.frame hf' (hd.names.not_mem .tmp trivial (by simp))
    rw [Store.compactLoop]
    dsimp only
    -- without a record to copy the output stays as it is
    have skip (h : st.copies L now s = []) : Output st (st.image L now (s + 1)) outf fs := by
      rw [Store.image, h, List.append_nil]
      exact hout
    have hE : E.Reads fs :=
      Env.reads_of (fun c hc => hinv c fs hc ⟨s, s, hcp, fun hno =>
        ⟨.inl (hj hno), fun _ => hout.complete⟩⟩) hmild
    have hseg := hcp.segment hd hlt (Nat.le_refl s)
    split
    · next hempty =>
      refine Env.wp_pure_bind (next outf fs hcp hj (skip ?_))
      rw [Store.copies, List.isEmpty_iff.1 hempty]
      split <;> rfl
    refine wp_openRead hE (fun hdir => ?_) fun i hdir _ => ?_
    · refine Env.wp_pure_bind (next outf fs hcp hj (skip ?_))
      rw [FileSystem.file_eq_none.2 hdir, eq_comm, Option.map_eq_none_iff] at hseg
      rw [Store.copies, hseg]
    rw [FileSystem.file_eq_some hdir, eq_comm, Option.map_eq_some_iff] at hseg
    obtain ⟨g, hg, hbytes⟩ := hseg
    have hne : i ≠ outf.ino := by
      rintro rfl
      exact hd.names.ne (a := .segment s) hs256 (b := .tmp) trivial (by simp)
        (fs.inj hdir hout.dir)
    have hwrite (x : Bytes) : Frame (Names st.basePrefix (· = .tmp)) fs
        (fs.setData outf.ino (fs.data outf.ino ++ x)) :=
      Frame.setData hout.dir (mem_names trivial rfl)
    have hjournal (x : Bytes) (hno : E.Faultless) :
        (fs.setData outf.ino (fs.data outf.ino ++ x)).file st.journalName
          = some (st.journalAt L now s).encode :=
      ((hwrite x).file (hd.names.not_mem .journal trivial (by simp))).trans (hj hno)
    have hcopied : st.copies L now s = copied (st.liveOffsets now s) g.bytes := by
      rw [Store.copies, hg]
    have hat (x : Bytes) (c : Call) (hc : ¬c.logs)
        (hx : x <+: recordsBytes (copied (st.liveOffsets now s) (fs.data i)) ∨ s = 0 ∧ ¬E.Faultless) :
        E.inv c (fs.setData outf.ino (fs.data outf.ino ++ x)) := by
      refine hinv _ _ hc ⟨s, s, hcp.write hout.dir x, fun hno => ⟨.inl (hjournal x hno), fun _ => ?_⟩⟩
      refine ⟨outf.ino, x, hout.dir, by rw [FileSystem.data_setData_self, hout.data], ?_⟩
      rw [hcopied, hbytes]
      exact hx.resolve_right fun h => h.2 hno
    refine Prog.wp_bind.2 (wp_copyRecords (F := s = 0 ∧ ¬E.Faultless) rfl hne hout.mode
      (by rw [hout.pos, hout.data]) hmild hat ?_ ?_ ?_)
    · -- a write can only fall short while segment 0 is there
      intro f x bs hf ha
      refine ⟨?_, fun hno => hno _ _ ha⟩
      rcases hmild _ _ ha with hjour | ⟨-, hzero⟩
      · rw [hf] at hjour
        have he := fs.inj (hjour : fs.dir _ = _) hout.dir
        exact absurd he (hd.names.ne trivial trivial (by simp))
      · by_contra hne0
        exact hzero (hcp.gone 0 (Nat.pos_of_ne_zero hne0))
    · intro src' outf' hino hmode hpos
      dsimp only at hpos ⊢
      rw [← hbytes] at hpos ⊢
      have hE' := Env.reads_of (fun c hc => hat (recordsBytes (copied (st.liveOffsets now s) g.bytes))
        c hc (.inl (hbytes ▸ List.prefix_refl _))) hmild
      refine wp_close hE' (Env.wp_pure_bind ?_)
      have hcopies : st.image L now (s + 1)
          = st.image L now s ++ copied (st.liveOffsets now s) g.bytes := by
        rw [Store.image, hcopied]
      refine next outf' _ (hcp.write hout.dir _) (hjournal _) ⟨hmode, ?_, ?_, ?_⟩
      · rw [hino]
        exact hout.dir
      · rw [hino, FileSystem.data_setData_self, hcopies, recordsBytes_append, hout.data]
      · rw [hpos, hcopies, recordsBytes_append, hout.data]
    · rintro ⟨rfl, hno⟩ src' outf' x
      refine wp_close (Env.reads_of (fun c hc => hat x c hc (.inr ⟨rfl, hno⟩)) hmild) (Env.wp_pure_bind ?_)
      exact hQf hno outf' _ (hcp.write hout.dir x)

end loop

end MicroStore
