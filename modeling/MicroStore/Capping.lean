import MicroStore.Faulting
import MicroStore.Finalizing

/-!
# The size after a put

A put that returns true leaves no more entries in the index than `max_recs` allows, whatever the files
held before and whatever fails (`maxRecs_respected`).  Eviction sees to it, but a compaction that follows
builds the index anew from `compact.tmp`.  So the proof counts records: the copy loop writes one record
for each entry at most (`Copying`), and the scan reads back one entry for each record at most
(`harsh_scanLoop`).

## What may go wrong in between

Any write may fall short, and the loop goes on: the next record is then written over the rest of the one
that was cut off.  The bytes of `compact.tmp` are therefore not a sequence of records, and the count is
of the records a scan finds in them.  `Room` is the invariant of the copy loop: at most `n` records are
found, and at most one more when another is written.

The store files may even bear one name, as they do with a prefix of 63 characters.  Where the journal
goes over `compact.tmp`, the scan finds nothing, since it does not start like a record (`Dull`).

## What is here

* `Few`, `Room` — how many records a scan finds.
* `Copying` — the handle on `compact.tmp` while it is written, and what a scan would find there.
* `Store.Shrunk` — an operation that leaves no more entries than there were.  Everything apart from the
  insertion of a put does.
* `Store.CopiesFit` — as many records as there may be entries fit a 32-bit offset.
* `harsh_put`, `maxRecs_respected` — the result.
-/

set_option autoImplicit false

namespace MicroStore

/-! ## Contents of `compact.tmp`

A scan stops at the first frame that is not whole, so what is behind the last whole record does not
count, whatever it is. -/

/-- No record begins here. -/
def Dull (bs : Bytes) : Prop := ∀ b ∈ bs.head?, b ≠ UInt8.ofNat magicRecord.toNat

/-- Nothing begins in no bytes. -/
theorem Dull.nil : Dull [] := fun _ hb => nomatch hb

/-- A scan stops there. -/
theorem Dull.magic {bs : Bytes} (h : Dull bs) (hlen : headerSize ≤ bs.length) :
    (RecordHeader.decode (bs.take headerSize)).magic ≠ magicRecord := by
  cases bs with
  | nil => exact absurd hlen (by decide)
  | cons b bs =>
    intro hmagic
    refine h b rfl (UInt8.toNat_inj.1 ?_)
    have hfield : field ((b :: bs).take headerSize) 0 4 % 256 = b.toNat := by
      change (b.toNat + 256 * ofLE _) % 256 = _
      have hb : b.toNat < 256 := b.toNat_lt
      omega
    have hm : (UInt32.ofNat (field ((b :: bs).take headerSize) 0 4)).toNat = magicRecord.toNat :=
      congrArg UInt32.toNat hmagic
    rw [UInt32.toNat_ofNat'] at hm
    rw [UInt8.toNat_ofNat', ← hm]
    omega

/-- The journal is dull, even if it is cut short. -/
theorem Journal.dull {j : Journal} (h : j.magic = journalMagic) {bs : Bytes} (hpre : bs <+: j.encode) :
    Dull bs := by
  obtain ⟨rest, hrest⟩ := hpre
  cases bs with
  | nil => exact Dull.nil
  | cons b bs =>
    rw [Journal.encode, h] at hrest
    obtain ⟨rfl, -⟩ := List.cons.inj hrest
    intro b hb
    obtain rfl := Option.some.inj hb
    decide

/-- At most `n` records are found in these bytes. -/
def Few (n : Nat) (bs : Bytes) : Prop :=
  (∃ rs : List Record, rs.length ≤ n ∧ bs = recordsBytes rs) ∨ Dull bs

/-- At most `n` records are found in these bytes, and no more than `n + 1` when another is written at
`pos`. -/
def Room (n pos : Nat) (bs : Bytes) : Prop :=
  (∃ rs : List Record, rs.length ≤ n ∧ bs = recordsBytes rs ∧ pos = bs.length) ∨
    Dull bs ∧ (pos = 0 → bs.length ≤ Journal.size)

/-- What is there is not more than there is room for. -/
theorem Room.few {n pos : Nat} {bs : Bytes} (h : Room n pos bs) : Few n bs :=
  h.imp (fun ⟨rs, hrs, hbs, _⟩ => ⟨rs, hrs, hbs⟩) And.left

theorem Room.mono {m n pos : Nat} {bs : Bytes} (h : Room m pos bs) (hmn : m ≤ n) : Room n pos bs :=
  h.imp_left fun ⟨rs, hrs, hbs⟩ => ⟨rs, Nat.le_trans hrs hmn, hbs⟩

/-- Another record is written. -/
theorem Room.write {n pos : Nat} {bs : Bytes} (h : Room n pos bs) (r : Record) :
    Room (n + 1) (pos + r.size) (overwrite bs pos r.bytes) := by
  have hsize : Journal.size ≤ r.size := by
    rw [Record.size, headerSize, Journal.size]
    omega
  rcases h with ⟨rs, hrs, hbs, rfl⟩ | ⟨hdull, hzero⟩
  · refine .inl ⟨rs ++ [r], ?_, ?_, ?_⟩
    · rw [List.length_append]
      exact Nat.add_le_add_right hrs 1
    · rw [overwrite_end, hbs, recordsBytes_append, recordsBytes_cons, recordsBytes_nil,
        List.append_nil]
    · rw [overwrite_end, List.length_append, Record.length_bytes]
  cases pos with
  | zero =>
    -- the record covers all that is there
    have hcover : overwrite bs 0 r.bytes = r.bytes := by
      have hbs : bs.length ≤ r.size := Nat.le_trans (hzero rfl) hsize
      simp [overwrite, hbs]
    refine .inl ⟨[r], Nat.le_add_left 1 n, ?_, ?_⟩
    · rw [hcover, recordsBytes_cons, recordsBytes_nil, List.append_nil]
    · rw [hcover, Record.length_bytes, Nat.zero_add]
  | succ pos =>
    refine .inr ⟨?_, fun h => absurd h (by omega)⟩
    cases bs with
    | nil =>
      intro b hb
      obtain rfl : _ = b := Option.some.inj hb
      decide
    | cons b bs => exact hdull

/-- A record takes no more bytes than this. -/
def maxFrameSize : Nat := headerSize + maxKeyLen + maxValueLen + commitSize

/-- No record is longer than the limits of key and value allow. -/
theorem Record.size_le (r : Record) : r.size ≤ maxFrameSize := by
  have hk := r.key_le
  have hv := r.value_le
  rw [Record.size, maxFrameSize]
  omega

/-! ## Scanning it -/

section scanning

variable {fs : FileSystem} {β : Type}

/-- The scan of a compaction finds one entry for each record at most. -/
theorem harsh_scanLoop {seg fuel : Nat} {f : Handle} (hread : f.mode = .read) {n off : Nat}
    {idx : Index} (hfew : Few n (f.rest fs)) (hoff : off + n * maxFrameSize < 2 ^ 32)
    (hpos : f.pos = off) {Q : Handle × Index → FileSystem → Prop}
    (hQ : ∀ f' idx', idx'.keys.length ≤ idx.keys.length + n → Q (f', idx') fs) :
    Env.harsh.wp (scanLoop (fun _ idx => idx) seg fuel f off idx) Q fs := by
  induction fuel generalizing f n off idx with
  | zero => exact Env.wp_ret (hQ f idx (Nat.le_add_right _ _))
  | succ fuel ih =>
    have stop (f' : Handle) : Env.harsh.wp (pure (f', idx)) Q fs :=
      Env.wp_ret (hQ f' idx (Nat.le_add_right _ _))
    have hcan : f.mode.canRead = true := by rw [hread]; rfl
    rw [scanLoop]
    refine Env.harsh_read fun bs f1 hino1 hmode1 hfull1 => ?_
    dsimp only
    split
    · exact stop f1
    next hlen1 =>
    obtain ⟨rfl, hpos1⟩ := hfull1 (not_not.1 hlen1) hcan
    have hlen : headerSize ≤ (f.rest fs).length := by
      have hlen1 := not_not.1 hlen1
      rw [List.length_take] at hlen1
      omega
    rcases hfew with ⟨rs, hrs, hrest⟩ | hdull
    swap
    · rw [if_pos (.inl (hdull.magic hlen))]
      exact stop f1
    cases rs with
    | nil =>
      rw [hrest] at hlen
      exact absurd hlen (by decide)
    | cons r rs =>
      rw [recordsBytes_cons] at hrest
      rw [List.length_cons] at hrs
      rw [hrest, Record.take_bytes, RecordHeader.decode_encode]
      split
      · exact stop f1
      have hdata (f' : Handle) (hi : f'.ino = f.ino) (m : Nat) (hp : f'.pos = off + m) :
          f'.rest fs = (r.bytes ++ recordsBytes rs).drop m := by
        rw [Handle.rest, hi, hp, ← hrest, Handle.rest, hpos, List.drop_drop]
      refine Env.harsh_read fun key f2 hino2 hmode2 hfull2 => ?_
      dsimp only
      split
      · exact stop f2
      next hlen2 =>
      obtain ⟨rfl, hpos2⟩ := hfull2 (not_not.1 hlen2) (by rw [hmode1]; exact hcan)
      refine Env.harsh_call (by exact id) ?_
      refine Env.harsh_read fun c f3 hino3 hmode3 hfull3 => ?_
      dsimp only
      split
      · exact stop f3
      next hlen3 =>
      split
      · exact stop f3
      obtain ⟨-, hpos3⟩ := hfull3 (not_not.1 hlen3)
        (show f2.mode.canRead = true by rw [hmode2, hmode1]; exact hcan)
      -- the frame ends before the offsets wrap around
      have hsize : headerSize + r.hdr.keyLen.toNat + r.hdr.length.toNat + commitSize = r.size := by
        rw [r.keyLen_eq, r.length_eq, Record.size]
      obtain ⟨n, rfl⟩ : ∃ m, n = m + 1 := Nat.exists_eq_succ_of_ne_zero (by omega)
      have hle := r.size_le
      rw [Nat.succ_mul] at hoff
      have hoff' : wrap32 (off + headerSize + r.hdr.keyLen.toNat + r.hdr.length.toNat + commitSize)
          = off + r.size := by
        rw [← hsize, wrap32_of_lt (by omega)]
        omega
      have hcommit : wrap32 (off + headerSize + r.hdr.keyLen.toNat + r.hdr.length.toNat) + commitSize
          = off + r.size := by
        rw [← hsize, wrap32_of_lt (by omega)]
        omega
      rw [hoff']
      have hpos3 : f3.pos = off + r.size := hpos3.trans hcommit
      have hino3 : f3.ino = f.ino := hino3.trans (hino2.trans hino1)
      have hmode3 : f3.mode = .read := hmode3.trans (hmode2.trans (hmode1.trans hread))
      refine ih hmode3 (.inl ⟨rs, Nat.le_of_succ_le_succ hrs, ?_⟩) (by omega) hpos3
        fun f' idx' hidx => hQ f' idx' (Nat.le_trans hidx ?_)
      · rw [hdata f3 hino3 r.size hpos3, List.drop_left' r.length_bytes]
      · split
        · omega
        · refine Nat.le_trans (Nat.add_le_add_right (length_keys_insert_le ..) n) (Nat.le_of_eq ?_)
          omega

end scanning

/-! ## Writing it -/

/-- The file `compact.tmp` was opened as `outf`, and has room for the copies to come.  The name may be
gone by now, or belong to the journal. -/
structure Copying (tmp : Path) (n : Nat) (outf : Handle) (fs : FileSystem) : Prop where
  /-- It was opened with truncation. -/
  mode : outf.mode = .write
  /-- Its inode is in use. -/
  lt : outf.ino < fs.next
  /-- It has no other name. -/
  only : ∀ p, fs.dir p = some outf.ino → p = tmp
  /-- The records written so far. -/
  room : Room n outf.pos (fs.data outf.ino)
  /-- If there is another file of this name now, nothing is found in it. -/
  other : ∀ i, fs.dir tmp = some i → i ≠ outf.ino → Dull (fs.data i)

namespace Copying

variable {tmp p : Path} {n i : Nat} {outf : Handle} {fs : FileSystem}

theorem mono {m : Nat} (h : Copying tmp m outf fs) (hmn : m ≤ n) : Copying tmp n outf fs :=
  { h with room := h.room.mono hmn }

/-- Under its name, no more than the copies are found. -/
theorem few (h : Copying tmp n outf fs) (hd : fs.dir tmp = some i) : Few n (fs.data i) := by
  by_cases hi : i = outf.ino
  · rw [hi]
    exact h.room.few
  · exact .inr (h.other i hd hi)

/-- A removal does not matter to it. -/
theorem unlink (h : Copying tmp n outf fs) (p : Path) : Copying tmp n outf (fs.unlink p) where
  mode := h.mode
  lt := h.lt
  only q hq := by
    rw [FileSystem.dir_unlink] at hq
    split at hq
    · cases hq
    · exact h.only q hq
  room := h.room
  other i hd := by
    rw [FileSystem.dir_unlink] at hd
    split at hd
    · cases hd
    · exact h.other i hd

/-- Nor does a new file, which is empty. -/
theorem create (h : Copying tmp n outf fs) (p : Path) : Copying tmp n outf (fs.create p) where
  mode := h.mode
  lt := Nat.lt_succ_of_lt h.lt
  only q hq := by
    rw [FileSystem.dir_create] at hq
    split at hq
    · exact absurd (Option.some.inj hq) (Nat.ne_of_gt h.lt)
    · exact h.only q hq
  room := by
    have hdata : (fs.create p).data outf.ino = fs.data outf.ino := if_neg (Nat.ne_of_lt h.lt)
    rw [hdata]
    exact h.room
  other i hd hi := by
    rw [FileSystem.dir_create] at hd
    split at hd
    · obtain rfl := Option.some.inj hd
      rw [FileSystem.data_create_next]
      exact Dull.nil
    · have hdata : (fs.create p).data i = fs.data i := if_neg (Nat.ne_of_lt (fs.lt_next hd))
      rw [hdata]
      exact h.other i hd hi

/-- Some file is overwritten by something short and dull. -/
theorem setData (h : Copying tmp n outf fs) (i : Nat) {bs : Bytes} (hdull : Dull bs)
    (hlen : bs.length ≤ Journal.size) : Copying tmp n outf (fs.setData i bs) where
  mode := h.mode
  lt := h.lt
  only := h.only
  room := by
    rw [FileSystem.data_setData]
    split
    · exact .inr ⟨hdull, fun _ => hlen⟩
    · exact h.room
  other j hd hj := by
    rw [FileSystem.data_setData]
    split
    · exact hdull
    · exact h.other j hd hj

/-- Another record is copied. -/
theorem write (h : Copying tmp n outf fs) (r : Record) {f : Handle} (hino : f.ino = outf.ino)
    (hmode : f.mode = .write) (hpos : f.pos = outf.pos + r.size) :
    Copying tmp (n + 1) f (fs.setData outf.ino (overwrite (fs.data outf.ino) outf.pos r.bytes)) where
  mode := hmode
  lt := by
    rw [hino]
    exact h.lt
  only := by
    rw [hino]
    exact h.only
  room := by
    rw [hino, hpos, FileSystem.data_setData_self]
    exact h.room.write r
  other j hd hj := by
    rw [hino] at hj
    rw [FileSystem.data_setData, if_neg hj]
    exact h.other j hd hj

end Copying

section copying

open Env

variable {st : Store} {tmp : Path} {n : Nat} {outf : Handle} {fs : FileSystem} {β : Type}

/-- The journal may be rewritten, and even be `compact.tmp` itself. -/
theorem harsh_writeJournal (h : Copying tmp n outf fs) {state : JournalState} {next valid : Nat} :
    harsh.wp (st.writeJournal state next valid) (fun _ fs' => Copying tmp n outf fs') fs := by
  rw [Store.writeJournal]
  -- the bytes that get through are short and dull
  have tail (i : Nat) (fs' : FileSystem) (h' : Copying tmp n outf fs') (hnil : fs'.data i = []) :
      harsh.wp (do
        let j : Journal := ⟨journalMagic, UInt32.ofNat state.code, UInt32.ofNat next,
          UInt32.ofNat valid⟩
        let x ← Handle.writeBytes ⟨i, 0, .write⟩ j.encode
        x.2.flush
        x.2.close) (fun _ fs' => Copying tmp n outf fs') fs' := by
    refine harsh_write rfl fun x hx => ?_
    refine harsh_call (by exact id) (harsh_call (by exact id) ?_)
    have hover : overwrite (fs'.data i) 0 x = x := by
      rw [hnil]
      simp [overwrite]
    change Copying tmp n outf (fs'.setData i (overwrite (fs'.data i) 0 x))
    rw [hover]
    exact h'.setData i (Journal.dull rfl hx) (Nat.le_trans hx.length_le (by simp))
  exact harsh_openWrite (fun i _ => tail _ _ (h.setData i Dull.nil (Nat.zero_le _))
    FileSystem.data_setData_self) (tail _ _ (h.create _) FileSystem.data_create_next) h

/-- The copy loop writes no more records than it is given offsets. -/
theorem harsh_copyRecords {offsets : List Nat} {src : Handle} (h : Copying tmp n outf fs)
    {Q : Bool × Handle × Handle → FileSystem → Prop}
    (hQ : ∀ r fs', (r.1 = true → Copying tmp (n + offsets.length) r.2.2 fs') → Q r fs') :
    harsh.wp (copyRecords offsets src outf) Q fs := by
  induction offsets generalizing n src outf fs with
  | nil => exact hQ (true, src, outf) fs fun _ => h
  | cons off offsets ih =>
    -- what is not a record is skipped
    have skip (src' : Handle) : harsh.wp (copyRecords offsets src' outf) Q fs := by
      refine ih h fun r fs' hr => hQ r fs' fun htrue => (hr htrue).mono ?_
      rw [List.length_cons]
      omega
    have write (r : Record) (src' : Handle) : harsh.wp (do
          let x ← outf.writeAll ([r.hdr.encode, r.key] ++
            (if r.hdr.length ≠ 0 then [r.value] else []) ++ [commitBytes])
          if x.1 ≠ headerSize + r.hdr.keyLen.toNat + r.hdr.length.toNat + commitSize then
            pure (false, src', x.2)
          else copyRecords offsets src' x.2) Q fs := by
      have hsize : headerSize + r.hdr.keyLen.toNat + r.hdr.length.toNat + commitSize = r.size := by
        rw [r.keyLen_eq, r.length_eq, Record.size]
      rw [hsize]
      refine Prog.wp_bind.2 (harsh_writeAll h.mode fun m f' bs hi hm _ hfull => ?_)
      have hflat := flatten_chunks r
      change (m = (([r.hdr.encode, r.key] ++ (if r.hdr.length ≠ 0 then [r.value] else []) ++
        [commitBytes]).flatten).length → bs = overwrite _ _ (([r.hdr.encode, r.key] ++
          (if r.hdr.length ≠ 0 then [r.value] else []) ++ [commitBytes]).flatten) ∧ _) at hfull
      rw [hflat, Record.length_bytes] at hfull
      dsimp only
      split
      · exact hQ _ _ fun htrue => Bool.noConfusion htrue
      next hm' =>
      obtain rfl := not_not.1 hm'
      obtain ⟨rfl, hpos⟩ := hfull rfl
      refine ih (h.write r hi hm hpos) fun r fs' hr => hQ r fs' fun htrue => (hr htrue).mono ?_
      rw [List.length_cons]
      omega
    rw [copyRecords]
    refine harsh_call (by exact id) ?_
    refine harsh_read fun bs f1 _ _ _ => ?_
    dsimp only
    split
    · exact skip f1
    generalize RecordHeader.decode bs = hdr
    split
    · exact skip f1
    next hhdr =>
    simp only [not_or, not_not, Nat.not_lt] at hhdr
    obtain ⟨hmagic, hkeyLen, hvalueLen⟩ := hhdr
    refine harsh_read fun key f2 _ _ _ => ?_
    dsimp only
    split
    · exact skip f2
    next hkey =>
    have hkey := not_not.1 hkey
    -- the record that the header, the key and this value make up
    have copy (value : Bytes) (hvalue : ¬value.length ≠ hdr.length.toNat) (src' : Handle) :
        harsh.wp (do
          let x ← outf.writeAll ([hdr.encode, key] ++
            (if hdr.length ≠ 0 then [value] else []) ++ [commitBytes])
          if x.1 ≠ headerSize + hdr.keyLen.toNat + hdr.length.toNat + commitSize then
            pure (false, src', x.2)
          else copyRecords offsets src' x.2) Q fs :=
      write ⟨hdr, key, value, hmagic, hkey.symm, (not_not.1 hvalue).symm, hkey ▸ hkeyLen,
        not_not.1 hvalue ▸ hvalueLen⟩ src'
    split
    · next hlen =>
      refine harsh_read fun value f3 _ _ _ => ?_
      dsimp only
      split
      · exact skip f3
      · next hvalue =>
        have hcopy := copy value hvalue f3
        rw [if_pos hlen] at hcopy
        exact hcopy
    · next hlen =>
      refine wp_pure_bind ?_
      dsimp only
      split
      · exact skip f2
      · next hvalue =>
        have hcopy := copy [] hvalue f2
        rw [if_neg hlen] at hcopy
        exact hcopy

theorem countP_add_le {α : Type} {p q r : α → Bool} (hp : ∀ x, p x = true → r x = true)
    (hq : ∀ x, q x = true → r x = true) (hpq : ∀ x, p x = true → q x = false) (l : List α) :
    l.countP p + l.countP q ≤ l.countP r := by
  induction l with
  | nil => exact Nat.le_refl 0
  | cons x l ih =>
    cases hpx : p x with
    | true =>
      have hqx : ¬q x = true := Bool.eq_false_iff.1 (hpq x hpx)
      rw [List.countP_cons_of_pos hpx, List.countP_cons_of_neg hqx,
        List.countP_cons_of_pos (hp x hpx)]
      omega
    | false =>
      have hpx : ¬p x = true := Bool.eq_false_iff.1 hpx
      have hr : l.countP r ≤ (x :: l).countP r := (List.sublist_cons_self x l).countP_le
      cases hqx : q x with
      | true =>
        rw [List.countP_cons_of_neg hpx, List.countP_cons_of_pos hqx,
          List.countP_cons_of_pos (hq x hqx)]
        omega
      | false =>
        rw [List.countP_cons_of_neg hpx, List.countP_cons_of_neg (Bool.eq_false_iff.1 hqx)]
        omega

/-- The index entries whose segments have been copied. -/
def Store.entriesBelow (st : Store) (s : Nat) : Nat :=
  (st.items.filter fun it => it.2.segment.toNat < s).length

/-- The entries of some segments are not more than all. -/
theorem Store.entriesBelow_le (st : Store) (s : Nat) : st.entriesBelow s ≤ st.indexSize := by
  have hlen : st.items.length = st.indexSize := by
    rw [st.indexSize_eq]
    exact (st.order.perm st.index.entries).length_eq
  rw [← hlen]
  exact List.length_filter_le _ _

/-- The offsets of another segment are those of other entries. -/
theorem Store.entriesBelow_succ (st : Store) (now : UInt32) (s : Nat) :
    st.entriesBelow s + (st.liveOffsets now s).length ≤ st.entriesBelow (s + 1) := by
  rw [Store.liveOffsets, List.length_insertionSort, List.length_map, Store.entriesBelow,
    Store.entriesBelow, ← List.countP_eq_length_filter, ← List.countP_eq_length_filter,
    ← List.countP_eq_length_filter]
  refine countP_add_le (fun it hit => ?_) (fun it hit => ?_) (fun it hit => ?_) st.items
  · exact decide_eq_true (Nat.lt_succ_of_lt (of_decide_eq_true hit))
  · have heq := of_decide_eq_true (Bool.and_eq_true_iff.1 hit).1
    exact decide_eq_true (heq ▸ Nat.lt_succ_self _)
  · have hne : it.2.segment.toNat ≠ s := Nat.ne_of_lt (of_decide_eq_true hit)
    rw [decide_eq_false hne, Bool.false_and]

/-- The segment loop copies no more records than there are entries. -/
theorem harsh_compactLoop {now : UInt32} {c s : Nat}
    (h : Copying st.tmpName (st.entriesBelow s) outf fs) :
    harsh.wp (st.compactLoop now c s outf)
      (fun r fs' => r.1 = true → Copying st.tmpName st.indexSize r.2.2 fs') fs := by
  induction c generalizing s outf fs with
  | zero => exact fun _ => h.mono (st.entriesBelow_le s)
  | succ c ih =>
    -- the copies are complete: the journal says so, and the segment goes
    have next (outf : Handle) (fs : FileSystem)
        (h : Copying st.tmpName (st.entriesBelow (s + 1)) outf fs) : harsh.wp (do
          outf.flush
          let validSize ← outf.tell
          st.writeJournal .compacting (s + 1) validSize
          let _ ← removeFile (st.segmentName s)
          st.compactLoop now c (s + 1) outf)
        (fun r fs' => r.1 = true → Copying st.tmpName st.indexSize r.2.2 fs') fs := by
      refine harsh_call (by exact id) (harsh_call (by exact id) ?_)
      refine wp_seq (harsh_writeJournal h) fun _ fs' h' => ?_
      exact harsh_remove fun _ => ih (h'.unlink _)
    have hle := st.entriesBelow_succ now s
    rw [Store.compactLoop]
    dsimp only
    split
    · exact wp_pure_bind (next outf fs (h.mono (by omega)))
    refine harsh_openRead fun f hf => ?_
    cases f with
    | none => exact wp_pure_bind (next outf fs (h.mono (by omega)))
    | some src =>
      refine Prog.wp_bind.2 (harsh_copyRecords h fun r fs' hr => ?_)
      refine harsh_call (by exact id) (wp_pure_bind ?_)
      dsimp only
      split
      · exact fun htrue => Bool.noConfusion htrue
      · next hok =>
        refine next _ _ ((hr ?_).mono hle)
        simpa using hok

/-- Removing segments leaves `compact.tmp` alone, or removes it. -/
theorem harsh_removeSegments {c i : Nat} (h : Copying tmp n outf fs) :
    harsh.wp (st.removeSegments c i) (fun _ fs' => Copying tmp n outf fs') fs := by
  induction c generalizing i fs with
  | zero => exact h
  | succ c ih => exact harsh_remove fun _ => ih (h.unlink _)

end copying

/-! ## Operations

From the top of `put` down: each operation leaves no more entries than there were.  A lemma is named
after the function of the source with `harsh_` in front. -/

/-- The index has not become larger. -/
structure Store.Shrunk (st st' : Store) : Prop where
  /-- No more entries. -/
  size : st'.indexSize ≤ st.indexSize
  /-- The limit is the same. -/
  maxRecs : st'.policyMaxRecs = st.policyMaxRecs

namespace Store.Shrunk

variable {st st' st'' : Store}

theorem of_eq (hindex : st'.index = st.index) (hmax : st'.policyMaxRecs = st.policyMaxRecs) :
    st.Shrunk st' where
  size := by rw [Store.indexSize, hindex]; exact Nat.le_refl _
  maxRecs := hmax

theorem refl (st : Store) : st.Shrunk st := of_eq rfl rfl

theorem trans (h : st.Shrunk st') (h' : st'.Shrunk st'') : st.Shrunk st'' :=
  ⟨Nat.le_trans h'.size h.size, h'.maxRecs.trans h.maxRecs⟩

theorem congr (h : st.Shrunk st') (hindex : st''.index = st'.index)
    (hmax : st''.policyMaxRecs = st'.policyMaxRecs) : st.Shrunk st'' :=
  h.trans (of_eq hindex hmax)

theorem prune (st : Store) : st.Shrunk st.pruneIndexToMaxRecs.2 := by
  by_cases hmax : st.policyMaxRecs = 0
  · rw [pruneIndexToMaxRecs_eq (.inl hmax)]
    exact refl st
  · obtain ⟨n, idx, d, hprune, -⟩ := prune_spec st
    refine ⟨?_, by rw [hprune]⟩
    rw [(prune_keeps_greatest hmax).1]
    exact Nat.min_le_left _ _

end Store.Shrunk

section operations

open Env

variable {st : Store} {fs : FileSystem}

theorem harsh_finalizeCompaction {n : Nat} {outf : Handle} (h : Copying st.tmpName n outf fs)
    (hn : n ≤ st.indexSize) (hsmall : n * maxFrameSize < 2 ^ 32) :
    harsh.wp st.finalizeCompaction (fun st' _ => st.Shrunk st') fs := by
  rw [Store.finalizeCompaction]
  refine wp_seq (harsh_removeSegments h) fun _ fs₁ h₁ => ?_
  -- where nothing is renamed, the index stays
  have kept (fs' : FileSystem) : harsh.wp (do
      let _ ← removeFile st.tmpName
      pure st) (fun st' _ => st.Shrunk st') fs' :=
    harsh_remove fun _ => .refl st
  -- the index file is written anew
  have written (idx : Index) (hidx : idx.keys.length ≤ n) (fs' : FileSystem) :
      harsh.wp (Store.rewriteIndex { st with index := idx }) (fun st' _ => st.Shrunk st') fs' := by
    refine Prog.wp_of_always (fun _ _ => trivial) (Prog.always_mono (always_rewriteIndex _) ?_)
    rintro _ ⟨file, rfl⟩
    exact ⟨Nat.le_trans hidx hn, rfl⟩
  refine wp_call_faulty trivial (fun _ => ?_) fun _ _ => kept fs₁
  -- where the copy is renamed, the first segment is the copy
  have hfew : (posix (.rename st.tmpName (st.segmentName 0)) fs₁).1 = true → ∀ i,
      (posix (.rename st.tmpName (st.segmentName 0)) fs₁).2.dir (st.segmentName 0) = some i →
        Few n ((posix (.rename st.tmpName (st.segmentName 0)) fs₁).2.data i) := by
    intro htrue j hj
    cases hd : fs₁.dir st.tmpName with
    | none =>
      have hp : posix (.rename st.tmpName (st.segmentName 0)) fs₁ = (false, fs₁) := by
        rw [posix, hd]
        rfl
      rw [hp] at htrue
      exact Bool.noConfusion htrue
    | some i =>
      have hp : posix (.rename st.tmpName (st.segmentName 0)) fs₁ = (true,
          if st.tmpName = st.segmentName 0 then fs₁
          else fs₁.move st.tmpName (st.segmentName 0)) := by
        rw [posix, hd]
        rfl
      rw [hp] at hj ⊢
      dsimp only at hj ⊢
      split at hj
      · next hname =>
        rw [if_pos hname]
        exact h₁.few (hname ▸ hj)
      · next hname =>
        rw [if_neg hname, FileSystem.data_move]
        rw [FileSystem.dir_move, if_pos rfl] at hj
        exact h₁.few hj
  generalize posix (.rename st.tmpName (st.segmentName 0)) fs₁ = x at hfew
  obtain ⟨renamed, fs₂⟩ := x
  cases renamed with
  | false => exact kept fs₂
  | true =>
    dsimp only
    rw [if_neg (by decide)]
    refine harsh_openRead fun f hf => ?_
    cases f with
    | none => exact wp_pure_bind (written ∅ (Nat.zero_le n) fs₂)
    | some f =>
      obtain ⟨hd, hpos, hmode⟩ := hf f rfl
      have hrest : Few n (f.rest fs₂) := by
        rw [Handle.rest, hpos, List.drop_zero]
        exact hfew rfl f.ino hd
      refine Prog.wp_bind.2 (harsh_scanLoop hmode hrest (by omega) hpos fun f' idx' hidx => ?_)
      refine harsh_call (by exact id) (wp_pure_bind (written idx' ?_ fs₂))
      rwa [AList.keys_empty, List.length_nil, Nat.zero_add] at hidx

theorem harsh_compactInto {now : UInt32} {outf : Handle} (h : Copying st.tmpName 0 outf fs)
    (hsmall : st.indexSize * maxFrameSize < 2 ^ 32) :
    harsh.wp (st.compactInto now outf) (fun r _ => st.Shrunk r.2) fs := by
  rw [Store.compactInto]
  refine wp_seq (harsh_compactLoop (h.mono (Nat.zero_le _))) fun r fs' hr => ?_
  obtain ⟨writeOk, committedSegs, outf'⟩ := r
  refine harsh_call (by exact id) (harsh_call (by exact id) ?_)
  cases writeOk with
  | false =>
    rw [if_pos (by decide)]
    split
    · exact harsh_ignore fun _ _ => harsh_ignore fun _ _ => .refl st
    · exact Store.Shrunk.refl st
  | true =>
    rw [if_neg (by decide)]
    refine wp_seq (harsh_writeJournal (hr rfl)) fun _ fs'' h'' => ?_
    refine wp_seq (harsh_finalizeCompaction h'' (Nat.le_refl _) hsmall) fun st' _ hst' => ?_
    exact harsh_ignore fun _ _ => ⟨hst'.size, hst'.maxRecs⟩

/-- **A compaction does not add entries**, whatever fails. -/
theorem harsh_compact {now : UInt32}
    (hsmall : st.pruneIndexToMaxRecs.2.indexSize * maxFrameSize < 2 ^ 32) :
    harsh.wp (st.compact now) (fun r _ => st.Shrunk r.2) fs := by
  rw [Store.compact_eq]
  refine harsh_ignore fun _ fs₁ => ?_
  have htmp : st.pruneIndexToMaxRecs.2.tmpName = st.tmpName := by
    obtain ⟨n, idx, d, hprune, -⟩ := prune_spec st
    rw [hprune]
  have into (i : Nat) (fs' : FileSystem) (hd : fs'.dir st.tmpName = some i) (hnil : fs'.data i = []) :
      harsh.wp (st.pruneIndexToMaxRecs.2.compactInto now ⟨i, 0, .write⟩) (fun r _ => st.Shrunk r.2)
        fs' := by
    refine Prog.wp_mono (harsh_compactInto ?_ hsmall) fun r _ hr => (Store.Shrunk.prune st).trans hr
    rw [htmp]
    refine ⟨rfl, fs'.lt_next hd, fun p hp => fs'.inj hp hd, .inl ⟨[], Nat.le_refl 0, hnil, ?_⟩, ?_⟩
    · rw [hnil]
      rfl
    · exact fun j hj hne => absurd (Option.some.inj (hj.symm.trans hd)) hne
  refine harsh_openWrite (fun i hd => into _ _ hd FileSystem.data_setData_self)
    (into _ _ FileSystem.dir_create_self FileSystem.data_create_next) ?_
  exact harsh_ignore fun _ _ => .refl st

theorem harsh_flushBuffer : harsh.wp st.flushBuffer (fun r _ => st.Shrunk r.2) fs := by
  rw [Store.flushBuffer]
  split
  · exact Store.Shrunk.refl st
  · split
    · exact .of_eq rfl rfl
    · exact harsh_ignore fun _ _ => harsh_ignore fun _ _ => .of_eq rfl rfl

theorem harsh_openSegment {st₀ : Store} (h : st₀.Shrunk st) (id : Nat) :
    harsh.wp (st.openSegment id) (fun r _ => st₀.Shrunk r.2) fs := by
  rw [Store.openSegment]
  refine harsh_ignore fun _ _ => harsh_ignore fun f _ => ?_
  cases f with
  | none => exact ⟨h.size, h.maxRecs⟩
  | some f => exact harsh_ignore fun _ _ => harsh_ignore fun _ _ => ⟨h.size, h.maxRecs⟩

theorem harsh_appendLoop {fuel : Nat} {data : Bytes} :
    harsh.wp (Store.appendLoop fuel st data) (fun st' _ => st.Shrunk st') fs := by
  induction fuel generalizing st data fs with
  | zero => exact Store.Shrunk.refl st
  | succ fuel ih =>
    rw [Store.appendLoop]
    split
    · exact Store.Shrunk.refl st
    have rest {st' : Store} (h : st.Shrunk st') (bs : Bytes) (fs' : FileSystem) :
        harsh.wp (Store.appendLoop fuel st' bs) (fun st' _ => st.Shrunk st') fs' :=
      Prog.wp_mono ih fun _ _ hr => h.trans hr
    dsimp only
    generalize (if data.length < writeBufferSize - st.writeBuf.length then data.length
      else writeBufferSize - st.writeBuf.length) = n
    split
    · refine wp_seq harsh_flushBuffer fun r fs' hr => rest ?_ _ fs'
      exact ⟨hr.size, hr.maxRecs⟩
    · exact wp_pure_bind (@rest { st with writeBuf := st.writeBuf ++ data.take n }
        ⟨Nat.le_refl _, rfl⟩ _ fs)

theorem harsh_appendBuffer (data : Bytes) :
    harsh.wp (st.appendBuffer data) (fun st' _ => st.Shrunk st') fs :=
  harsh_appendLoop

theorem harsh_persistIndexEntry {key : Key} {seg off ts ttl : Nat} {priority : UInt8} :
    harsh.wp (st.persistIndexEntry key seg off ts ttl priority) (fun r _ => st.Shrunk r.2) fs := by
  rw [Store.persistIndexEntry]
  split
  · exact Store.Shrunk.refl st
  · exact harsh_ignore fun _ _ => harsh_ignore fun _ _ => .of_eq rfl rfl

/-- The copies of the entries that eviction leaves fit into a file. -/
def Store.CopiesFit (st : Store) : Prop :=
  min st.indexSize st.policyMaxRecs.toNat * maxFrameSize < 2 ^ 32

theorem Store.CopiesFit.prune (h : st.CopiesFit) (hmax : st.policyMaxRecs ≠ 0) :
    st.pruneIndexToMaxRecs.2.indexSize * maxFrameSize < 2 ^ 32 := by
  rw [(prune_keeps_greatest hmax).1]
  exact h

/-- What fits goes on fitting. -/
theorem Store.CopiesFit.shrunk {st' : Store} (h : st.CopiesFit) (hs : st.Shrunk st') :
    st'.CopiesFit := by
  rw [Store.CopiesFit, hs.maxRecs]
  refine Nat.lt_of_le_of_lt (Nat.mul_le_mul_right _ ?_) h
  have := hs.size
  omega

theorem harsh_compactIfThreshold {now : UInt32} (hfit : st.CopiesFit)
    (hmax : st.policyMaxRecs ≠ 0) :
    harsh.wp (st.compactIfThreshold now) (fun st' _ => st.Shrunk st') fs := by
  rw [Store.compactIfThreshold]
  dsimp only
  split
  · refine wp_seq (harsh_compact (hfit.prune hmax)) fun r fs' hr => ?_
    split
    · exact wp_seq (harsh_openSegment (by exact hr.congr rfl rfl) _) fun _ _ h => h
    · exact hr
  · exact Store.Shrunk.refl st

theorem harsh_rotateSegmentIfNeeded {clk : Clock} {writeSize : Nat} (hfit : st.CopiesFit)
    (hmax : st.policyMaxRecs ≠ 0) :
    harsh.wp (st.rotateSegmentIfNeeded clk writeSize) (fun r _ => st.Shrunk r.2) fs := by
  rw [Store.rotateSegmentIfNeeded]
  split
  · exact Store.Shrunk.refl st
  refine wp_seq harsh_flushBuffer fun r fs₁ hr => ?_
  refine harsh_ignore fun _ fs₂ => ?_
  dsimp only
  split
  · exact wp_seq (harsh_openSegment (by exact hr.congr rfl rfl) _) fun _ _ h => h
  split
  · exact wp_seq (harsh_openSegment (by exact hr.congr rfl rfl) _) fun _ _ h => h
  have hclosed : st.Shrunk { r.2 with
      activeFile := none, currentSegment := wrap32 (r.2.currentSegment + 1) } :=
    ⟨hr.size, hr.maxRecs⟩
  refine wp_seq (harsh_compact ((hfit.shrunk hclosed).prune ?_)) fun r' fs₃ hr' => ?_
  · rw [hclosed.maxRecs]
    exact hmax
  have hr' := hclosed.trans hr'
  split
  · exact wp_seq (harsh_openSegment (by exact hr'.congr rfl rfl) _) fun _ _ h => h
  · exact wp_seq (harsh_openSegment (by exact hr'.congr rfl rfl) _) fun _ _ h => h

theorem Store.countDead_shrunk (st : Store) (key : Key) : st.Shrunk (st.countDead key) := by
  rw [Store.countDead]
  split
  · exact .of_eq rfl rfl
  · exact .refl st

/-- The index after the insertion, and after the eviction. -/
theorem indexSize_insert_le {st' : Store} (h : st.Shrunk st') (hmax : st.policyMaxRecs ≠ 0) (key : Key)
    (seg off : Nat) (ts : UInt32) (ttl : Nat) (priority : UInt8) :
    let st₁ := st'.indexInsert key seg off ts ttl priority
    let st₂ := if st₁.policyMaxRecs.toNat > 0 ∧ st₁.indexSize > st₁.policyMaxRecs.toNat then
        st₁.pruneIndexToMaxRecs.2
      else st₁
    st₂.indexSize ≤ min (st.indexSize + 1) st.policyMaxRecs.toNat ∧
      st₂.policyMaxRecs = st.policyMaxRecs := by
  intro st₁ st₂
  have hmaxRecs : st₁.policyMaxRecs = st.policyMaxRecs := h.maxRecs
  have hsize : st₁.indexSize ≤ st.indexSize + 1 :=
    Nat.le_trans (length_keys_insert_le ..) (Nat.succ_le_succ h.size)
  have hpos : 0 < st.policyMaxRecs.toNat :=
    Nat.pos_of_ne_zero fun he => hmax (UInt32.toNat_inj.1 he)
  rw [← hmaxRecs] at hmax hpos ⊢
  obtain ⟨x, hx⟩ : ∃ x, st₂ = x := ⟨_, rfl⟩
  rw [hx]
  change (if st₁.policyMaxRecs.toNat > 0 ∧ st₁.indexSize > st₁.policyMaxRecs.toNat then
      st₁.pruneIndexToMaxRecs.2 else st₁) = x at hx
  subst hx
  split
  · refine ⟨?_, (Store.Shrunk.prune st₁).maxRecs⟩
    rw [(prune_keeps_greatest hmax).1]
    omega
  · exact ⟨by omega, rfl⟩

/-- **A put leaves no more entries than there may be**, whatever the files hold and whatever fails. -/
theorem harsh_put {clk : Clock} {key data : Buf} {ttl ts : UInt32} {priority : UInt8}
    (hmax : st.policyMaxRecs ≠ 0)
    (hfit : min (st.indexSize + 1) st.policyMaxRecs.toNat * maxFrameSize < 2 ^ 32) :
    harsh.wp (st.put clk key data ttl ts priority)
      (fun r _ => r.1 = true → r.2.size ≤ st.policyMaxRecs.toNat) fs := by
  have hfit₀ : st.CopiesFit := by
    refine Nat.lt_of_le_of_lt (Nat.mul_le_mul_right _ ?_) hfit
    omega
  rw [Store.put]
  split
  · exact fun htrue => nomatch htrue
  split
  · exact fun htrue => nomatch htrue
  split
  · exact fun htrue => nomatch htrue
  refine wp_seq (harsh_rotateSegmentIfNeeded hfit₀ hmax) fun r _ h₁ => ?_
  refine wp_seq (harsh_appendBuffer _) fun st₂ _ h₂ => ?_
  refine wp_seq (harsh_appendBuffer _) fun st₃ _ h₃ => ?_
  refine wp_seq (harsh_appendBuffer _) fun st₄ _ h₄ => ?_
  refine wp_seq (harsh_appendBuffer _) fun st₅ _ h₅ => ?_
  refine wp_seq harsh_flushBuffer fun r' _ h₆ => ?_
  have h := h₁.trans (h₂.trans (h₃.trans (h₄.trans (h₅.trans h₆))))
  dsimp only
  split
  · exact fun htrue => nomatch htrue
  obtain ⟨hsize, hmaxRecs⟩ := indexSize_insert_le (h.trans (r'.2.countDead_shrunk key.bytes)) hmax
    key.bytes (r'.2.countDead key.bytes).currentSegment r.2.currentOffset ts ttl.toNat priority
  refine wp_seq harsh_persistIndexEntry fun x _ hx => ?_
  have hx : (x.2.indexSize ≤ min (st.indexSize + 1) st.policyMaxRecs.toNat) ∧
      x.2.policyMaxRecs = st.policyMaxRecs :=
    ⟨Nat.le_trans hx.size hsize, hx.maxRecs.trans hmaxRecs⟩
  refine wp_seq (harsh_compactIfThreshold ?_ ?_) fun st' _ hst' _ => ?_
  · refine Nat.lt_of_le_of_lt (Nat.mul_le_mul_right _ ?_) hfit
    exact Nat.le_trans (Nat.min_le_left _ _) hx.1
  · exact hx.2 ▸ hmax
  · have hle : st'.size ≤ st'.indexSize := by
      rw [Store.size]
      split
      · exact Nat.zero_le _
      · exact Nat.le_refl _
    have hst' : st'.indexSize ≤ x.2.indexSize := hst'.size
    change st'.size ≤ _
    omega

end operations

/-! ## The policy -/

/-- **What `max_recs` does.**  Eviction leaves as many entries as there may be, as they were, and none
that goes has a greater score than one that stays; evicting one at a time leaves the same scores.  So a
put that returns true leaves no more entries than there may be: in any state, whatever the files hold
and whatever fails, as long as a file of that many records has 32-bit offsets. -/
theorem maxRecs_respected {st : Store} (hmax : st.policyMaxRecs ≠ 0) :
    let st' := st.pruneIndexToMaxRecs.2
    (st'.indexSize = min st.indexSize st.policyMaxRecs.toNat ∧
      (∀ k v, st'.indexFind k = some v → st.indexFind k = some v) ∧
      ∀ k v k' v', st.indexFind k = some v → st'.indexFind k = none → st'.indexFind k' = some v' →
        st.score ⟨k, v⟩ ≤ st.score ⟨k', v'⟩) ∧
    (st.evictSingly (st.indexSize - st.policyMaxRecs.toNat)).scores = st'.scores ∧
    ∀ (φ : Faults) (w : World) (clk : Clock) (key data : Buf) (ttl ts : UInt32) (priority : UInt8),
      min (st.indexSize + 1) st.policyMaxRecs.toNat * maxFrameSize < 2 ^ 32 →
      let r := (Prog.exec (faulty φ) (st.put clk key data ttl ts priority) w).1
      r.1 = true → r.2.size ≤ st.policyMaxRecs.toNat :=
  ⟨prune_keeps_greatest hmax, evictSingly_scores hmax, fun φ _ _ _ _ _ _ _ hfit =>
    Env.harsh_exec (harsh_put hmax hfit) φ⟩

/-- Two records in a store that may hold one. -/
def crowded : FsM Store := do
  let (_, st) ← (Store.new 65536 4 .recent).init ['a'] false 0 0
  let (_, st) ← st.put ⟨0, 0, 0⟩ (.at [1]) (.at []) 0 5 0
  let (_, st) ← st.put ⟨0, 0, 0⟩ (.at [2]) (.at []) 0 6 0
  pure (st.setMaxRecs 1)

theorem maxRecs_respected_crowded :
    let x := Prog.exec posix crowded .empty
    let st := x.1
    let r := (Prog.exec (faulty fun _ _ _ => none)
      (st.put ⟨0, 0, 0⟩ (.at [3]) (.at []) 0 7 0) ⟨x.2, 0⟩).1
    st.pruneIndexToMaxRecs.2.indexSize = 1 ∧
      (st.evictSingly 1).scores = st.pruneIndexToMaxRecs.2.scores ∧ r.1 = true ∧ r.2.size ≤ 1 := by
  intro x st r
  have hmax : st.policyMaxRecs ≠ 0 := by decide +kernel
  have hone : st.policyMaxRecs.toNat = 1 := by decide +kernel
  have htwo : st.indexSize = 2 := by decide +kernel
  have htrue : r.1 = true := by decide +kernel
  obtain ⟨⟨hsize, -⟩, hscores, hput⟩ := maxRecs_respected hmax
  rw [hone, htwo] at hsize hscores
  refine ⟨hsize, hscores, htrue, ?_⟩
  have h := hput (fun _ _ _ => none) ⟨x.2, 0⟩ ⟨0, 0, 0⟩ (.at [3]) (.at []) 0 7 0
    (by rw [hone, htwo]; decide) htrue
  rwa [hone] at h

end MicroStore
