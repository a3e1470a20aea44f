import MicroStore.Standing

/-!
# A truncated index file

`load_index` takes an index file that ends early for a whole one, so `init` goes on with what is left of
it and does not scan the segments (`truncated_index_forgets`).

The cut is harmless key by key.  What `init` leaves for a key is the last entry that counts and lasts
(`Setup.keptEntry`), and what a lookup makes of it is the value that stands where the entry points, up
to the time the entry expires (`Setup.lead`).  So nothing is lost exactly where, for every key, the
entries in front of the cut lead to the same value for the same time as all entries do
(`truncated_index_iff`): the last entry of the key is among them, or an earlier one of them leads to the
same record.

## What is here

* `wholeEntries`: the entries in front of the cut.
* `Log.cut`: the log of the files that are left (`Disk.cut`), and `Setup.loaded`: the object that has
  loaded the entries of an index file (`Setup.start_opened`).
* `Held.getAfter_truncate`: a lookup after an opening of the cut files, as what these entries show.
* `Setup.shown_eq`: what entries show of a key is what its kept entry leads to.
-/

set_option autoImplicit false

namespace MicroStore

/-- The file cut to its first `n` bytes. -/
def FileSystem.truncate (fs : FileSystem) (p : Path) (n : Nat) : FileSystem :=
  match fs.dir p with
  | none => fs
  | some i => fs.setData i ((fs.data i).take n)

/-- The entries that lie wholly within the first `n` bytes. -/
def wholeEntries : Nat → List IndexEntry → List IndexEntry
  | _, [] => []
  | n, e :: es => if e.size ≤ n then e :: wholeEntries (n - e.size) es else []

/-- What `get` answers after an opening of the files. -/
def Setup.getAfter (su : Setup) (order : IterationOrder) (fs : FileSystem) (clk : Clock) (key : Buf) :
    Option Value :=
  let s := Prog.exec posix (su.start order) fs
  (Prog.exec posix (s.1.getValue clk key) s.2).1.1

/-- What index entries, evicted down to the limit on the records if there is one, show of a key. -/
def Setup.shown (su : Setup) (order : IterationOrder) (fs : FileSystem) (es : List IndexEntry)
    (now : UInt32) (k : Key) : Option Value :=
  let st : Store := { (su.object order).configured su.pre su.segmentSize su.segmentCount with
    index := es.foldl (fun idx e => e.apply idx) ∅ }
  ((st.pruneIndexToMaxRecs.2.indexFind k).filter fun v =>
    !st.isTtlExpired now v.timestamp v.ttl.toNat).bind (st.fetch fs)

/-- The value that stands at this place of the segment files. -/
def Setup.valueAt (su : Setup) (fs : FileSystem) (seg off : Nat) : Option Value :=
  (fs.file (storePath su.basePrefix (.segment seg))).map fun file =>
    let hdr := RecordHeader.decode ((file.drop off).take headerSize)
    (file.drop (off + headerSize + hdr.keyLen.toNat)).take hdr.length.toNat

/-- The first time at which the record of the entry has expired, if there is one. -/
def Setup.deadline (su : Setup) (e : IndexEntry) : Option Nat :=
  let due := e.ts.toNat + (su.ttlOf e).toNat
  if su.ttlOf e ≠ 0 ∧ due < 2 ^ 32 then some due else none

/-- What the entry leads to: the value where it points, with the 8 bits of a segment number and the 24
bits of an offset that the index keeps, and the time that value expires. -/
def Setup.lead (su : Setup) (fs : FileSystem) (e : IndexEntry) : Option (Value × Option Nat) :=
  (su.valueAt fs (e.seg.toNat % 2 ^ 8) (e.off.toNat % 2 ^ 24)).map fun value => (value, su.deadline e)

/-- What a lookup at a time makes of a value and the time it expires. -/
def shownAt (now : UInt32) (lead : Value × Option Nat) : Option Value :=
  if ∃ due ∈ lead.2, due ≤ now.toNat then none else some lead.1

section truncating

/-- What is left of the entries, and the one that is cut off. -/
theorem take_entriesBytes (n : Nat) (es : List IndexEntry) : ∃ tail,
    (entriesBytes es).take n = entriesBytes (wholeEntries n es) ++ tail ∧ readEntry tail = none := by
  induction es generalizing n with
  | nil => exact ⟨[], List.take_nil, readEntry_nil⟩
  | cons e es ih =>
    rw [wholeEntries, entriesBytes_cons]
    split
    · next hle =>
      obtain ⟨tail, htake, htail⟩ := ih (n - e.size)
      refine ⟨tail, ?_, htail⟩
      rw [List.take_append, e.length_bytes, htake, List.take_of_length_le (by rw [e.length_bytes]; exact hle),
        entriesBytes_cons, List.append_assoc]
    · next hlt =>
      have hlt := Nat.not_le.1 hlt
      refine ⟨e.bytes.take n, ?_, readEntry_torn (List.take_prefix ..) ?_⟩
      · rw [List.take_append_of_le_length (by rw [e.length_bytes]; exact Nat.le_of_lt hlt)]
        rfl
      · rw [List.length_take, e.length_bytes]
        omega

theorem wholeEntries_isPrefix (n : Nat) (es : List IndexEntry) : wholeEntries n es <+: es := by
  induction es generalizing n with
  | nil => exact List.prefix_refl _
  | cons e es ih =>
    rw [wholeEntries]
    split
    · exact (List.prefix_cons_inj e).2 (ih _)
    · exact List.nil_prefix

theorem wholeEntries_self (es : List IndexEntry) :
    wholeEntries (entriesBytes es).length es = es := by
  induction es with
  | nil => rfl
  | cons e es ih =>
    rw [wholeEntries, entriesBytes_cons, List.length_append, e.length_bytes,
      if_pos (Nat.le_add_right ..), Nat.add_sub_cancel_left, ih]

/-- The bytes of an index file determine its entries. -/
theorem entriesBytes_inj {es es' : List IndexEntry} (h : entriesBytes es = entriesBytes es') :
    es = es' := by
  have hhead (e : IndexEntry) (es : List IndexEntry) : readEntry (entriesBytes (e :: es)) = some e := by
    rw [entriesBytes_cons, readEntry_bytes]
  induction es generalizing es' with
  | nil =>
    cases es' with
    | nil => rfl
    | cons e' es' => cases readEntry_nil.symm.trans ((congrArg readEntry h).trans (hhead e' es'))
  | cons e es ih =>
    cases es' with
    | nil => cases (hhead e es).symm.trans ((congrArg readEntry h).trans readEntry_nil)
    | cons e' es' =>
      have hread := congrArg readEntry h
      rw [hhead, hhead] at hread
      obtain rfl := Option.some.inj hread
      rw [entriesBytes_cons, entriesBytes_cons] at h
      rw [ih (List.append_cancel_left h)]

/-- Where every entry leads to a record, replaying them leads to records. -/
theorem exists_live {P : Located → Prop} (es : List IndexEntry)
    (hes : ∀ e ∈ es, e.seg.toNat ≠ deletedSeg → ∃ t, e.Leads t ∧ P t) :
    ∃ m : Live, Index.Shows (es.foldl (fun idx e => e.apply idx) ∅) m ∧
      ∀ k t, m k = some t → t.record.key = k ∧ P t := by
  have step (es : List IndexEntry) (idx : Index) (m : Live) (hs : idx.Shows m)
      (hm : ∀ k t, m k = some t → t.record.key = k ∧ P t)
      (hes : ∀ e ∈ es, e.seg.toNat ≠ deletedSeg → ∃ t, e.Leads t ∧ P t) :
      ∃ m : Live, Index.Shows (es.foldl (fun idx e => e.apply idx) idx) m ∧
        ∀ k t, m k = some t → t.record.key = k ∧ P t := by
    induction es generalizing idx m with
    | nil => exact ⟨m, hs, hm⟩
    | cons e es ih =>
      have hrest : ∀ e' ∈ es, e'.seg.toNat ≠ deletedSeg → ∃ t, e'.Leads t ∧ P t :=
        fun e' he' => hes e' (List.mem_cons_of_mem _ he')
      by_cases hdel : e.seg.toNat = deletedSeg
      · refine ih (e.apply idx) (Function.update m e.key none) (fun k => ?_) (fun k t ht => ?_) hrest
        · rw [IndexEntry.apply, if_pos hdel]
          by_cases hk : k = e.key
          · rw [hk, AList.lookup_erase, Function.update_self]
            rfl
          · rw [AList.lookup_erase_ne hk, Function.update_of_ne hk]
            exact hs k
        · by_cases hk : k = e.key
          · rw [hk, Function.update_self] at ht
            cases ht
          · rw [Function.update_of_ne hk] at ht
            exact hm k t ht
      · obtain ⟨t, hleads, hP⟩ := hes e List.mem_cons_self hdel
        refine ih (e.apply idx) (Function.update m e.key (some t)) (fun k => ?_) (fun k t' ht => ?_) hrest
        · rw [IndexEntry.apply, if_neg hdel]
          by_cases hk : k = e.key
          · rw [hk, AList.lookup_insert, Function.update_self, Option.map_some, ← hleads.2]
            rfl
          · rw [AList.lookup_insert_ne hk, Function.update_of_ne hk]
            exact hs k
        · by_cases hk : k = e.key
          · rw [hk, Function.update_self] at ht
            cases ht
            exact ⟨hk ▸ hleads.1.symm, hP⟩
          · rw [Function.update_of_ne hk] at ht
            exact hm k t' ht
  exact step es ∅ (fun _ => none) Index.Shows.empty (by rintro _ _ ⟨⟩) hes

variable {su : Setup} {b : Bool} {m : Key → Option Record} {st : Store} {fs : FileSystem} {L : Log}

/-- The log of the files once the index file has been cut to these entries and what is left of the next
one, when the entries lead to the records in `m'`. -/
def Log.cut (L : Log) (m' : Live) (es : List IndexEntry) (tail : Bytes) : Log :=
  { L with live := m', saved := m', entries := es, indexTail := tail }

/-- The files that are left represent that log. -/
theorem Disk.cut {pre : Path} {count : Nat} (hd : Disk pre count fs L) {i : Nat}
    (hi : fs.dir (storePath pre .index) = some i) {es : List IndexEntry} (hpre : es <+: L.entries)
    (tail : Bytes) {m' : Live} (hshows : Index.Shows (es.foldl (fun idx e => e.apply idx) ∅) m')
    (hm' : ∀ k t, m' k = some t → t.record.key = k ∧ L.Has t ∧ t.off < 2 ^ 24 ∧ ¬t.record.deletes) :
    Disk pre count (fs.setData i (entriesBytes es ++ tail)) (L.cut m' es tail) := by
  have hn := hd.names
  have hf : Frame (Names pre (· = .index)) fs (fs.setData i (entriesBytes es ++ tail)) :=
    Frame.setData hi (mem_names (by exact trivial) rfl)
  refine ⟨hn, hd.lt, ⟨hd.ok.segs_lt, fun _ _ ht => ht, fun k t ht => (hm' k t ht).2.1,
    fun k t ht => (hm' k t ht).1, fun k t ht => (hm' k t ht).2.2.2,
    fun k t ht => (hm' k t ht).2.2.1, hshows, ?_⟩, fun s hs => ?_, ?_,
    hd.journal.frame hn hf (by simp) (by simp)⟩
  · rw [@Log.size_congr L (L.cut m' es tail) rfl]
    exact Nat.le_trans (Nat.mul_le_mul_left _ hpre.length_le) hd.ok.entries_le
  · rw [hf.file (hn.not_mem (.segment s) (Nat.lt_trans hs (spanOf_lt hd.lt)) (by simp))]
    exact hd.segs s hs
  · have hi' : (fs.setData i (entriesBytes es ++ tail)).dir (storePath pre .index) = some i := hi
    rw [FileSystem.file_eq_some hi', FileSystem.data_setData_self, Log.cut]

/-- The object that `init` has when it has loaded these entries. -/
def Setup.loaded (su : Setup) (order : IterationOrder) (es : List IndexEntry) : Store :=
  { (su.object order).configured su.pre su.segmentSize su.segmentCount with
    index := es.foldl (fun idx e => e.apply idx) ∅ }

/-- Opening files that represent a log leads to what its index file tells. -/
theorem Setup.start_opened {order : IterationOrder} {count : Nat} (hcount : count = su.segments.toNat)
    (hd : Disk su.basePrefix count fs L)
    (htail : readEntry L.indexTail = none)
    (hsmall : ∀ x ∈ Prog.trace posix (su.start order) fs, su.Small x.2) :
    ∃ L', Opened (su.loaded order L.entries) L.reloaded (Prog.exec posix (su.start order) fs).1
      (Prog.exec posix (su.start order) fs).2 L' := by
  refine @Env.exec_of_wp su.env _ _ (fun (st' : Store) fs' => ∃ L',
    Opened (su.loaded order L.entries) L.reloaded st' fs' L') _ ?_ hsmall
  rw [Setup.start]
  refine Env.wp_seq (wp_init_configured (Q := fun x fs' => ∃ L', Opened _ _ x.2 fs' L')
    (fun _ => ⟨trivial, id⟩) ?_) fun x fs' hx => Env.wp_ret hx
  subst hcount
  exact wp_initFiles (by exact su.fits) (by exact hd) htail rfl (.inr rfl) rfl rfl
    (fun _ _ _ _ => trivial) fun st' fs' L' hop => ⟨L', hop⟩

/-- What `get` answers after such an opening: what is left of the index is looked up in the segment
files as they were before. -/
theorem Opened.getValue {pre : Path} {count : Nat} {fs₀ fs' : FileSystem} {st' : Store} {L₀ L' : Log}
    (hop : Opened st L₀ st' fs' L') (hd : Disk pre count fs₀ L) (hpre : st.basePrefix = pre)
    (hrec : ∀ k t, L₀.live k = some t → L.Has t ∧ t.off < 2 ^ 24) (clk : Clock)
    (key : Buf) :
    (Prog.exec posix (st'.getValue clk key) fs').1.1
      = ((st.pruneIndexToMaxRecs.2.indexFind key.bytes).filter fun v =>
        !st.isTtlExpired clk.time v.timestamp v.ttl.toNat).bind (st.fetch fs₀) := by
  have hlookup (k : Key) : st.pruneIndexToMaxRecs.2.indexFind k = (L'.live k).map Located.indexValue := by
    rw [Store.indexFind, ← hop.index]
    exact hop.rep.shows k
  rw [hlookup]
  rw [hop.rep.getValue_exec, Store.visible]
  cases hl : L'.live key.bytes with
  | none => rfl
  | some t =>
    obtain ⟨hhas, hoff⟩ := hrec _ t (hop.live _ t hl)
    have hexp : st'.expires clk.time t.record
        = st.isTtlExpired clk.time t.indexValue.timestamp t.indexValue.ttl.toNat := by
      rw [Store.expires, Store.isTtlExpired, hop.config.ttl]
      rfl
    simp only [Option.map_some, Option.filter_some, hexp]
    split
    · exact (hd.fetch_eq hhas hoff hpre).symm
    · rfl

/-- **What `get` answers when the index file has been cut**: what the entries that are left show. -/
theorem Held.getAfter_truncate (h : Held su b m st fs L) (hsound : L.Sound) (n : Nat)
    (order : IterationOrder)
    (hsmall : ∀ x ∈ Prog.trace posix (su.start order) (fs.truncate (storePath su.basePrefix .index) n),
      su.Small x.2) (clk : Clock) (key : Buf) :
    su.getAfter order (fs.truncate (storePath su.basePrefix .index) n) clk key
      = su.shown order fs (wholeEntries n L.entries) clk.time key.bytes := by
  have hd := h.rep.disk
  obtain ⟨i, hi, hdata⟩ := hd.dir_index
  rw [h.indexTail, List.append_nil] at hdata
  obtain ⟨tail, htake, htail⟩ := take_entriesBytes n L.entries
  have hpre := wholeEntries_isPrefix n L.entries
  have hcut : fs.truncate (storePath su.basePrefix .index) n
      = fs.setData i (entriesBytes (wholeEntries n L.entries) ++ tail) := by
    rw [← h.pre, FileSystem.truncate, hi]
    dsimp only
    rw [hdata, htake]
  rw [Setup.getAfter, hcut]
  rw [hcut] at hsmall
  obtain ⟨m', hshows, hm'⟩ := @exists_live
    (fun t => L.Has t ∧ t.off < 2 ^ 24 ∧ ¬t.record.deletes) (wholeEntries n L.entries)
    fun e he => hsound e (hpre.subset he)
  have hd' := hd.cut hi hpre tail hshows hm'
  rw [h.pre] at hd'
  obtain ⟨L', hop⟩ := su.start_opened (congrArg UInt8.toNat h.segmentCount) hd' htail hsmall
  exact hop.getValue hd h.pre.symm (fun k t ht => ⟨(hm' k t ht).2.1, (hm' k t ht).2.2.1⟩) clk key

/-- The index entry of `e` has expired exactly when its deadline is over. -/
theorem Store.Loads.isTtlExpired_iff {es : List IndexEntry} (h : st.Loads su es) (e : IndexEntry)
    (now : UInt32) : st.isTtlExpired now e.value.timestamp e.value.ttl.toNat = true ↔
      ∃ due ∈ su.deadline e, due ≤ now.toNat := by
  have h24 : e.value.ttl.toNat = e.ttl.toNat % 2 ^ 24 := UInt24.toNat_ofNat_mod _
  have heff : (if 0 < e.value.ttl.toNat then e.value.ttl.toNat else st.policyTtlSecs.toNat)
      = (su.ttlOf e).toNat := by
    rw [h24, Setup.ttlOf, h.ttl]
    split
    · exact (Nat.mod_eq_of_lt (by omega)).symm
    · rfl
  have hts : e.value.timestamp = e.ts := rfl
  have hnow := now.toNat_lt
  have hzero : su.ttlOf e ≠ 0 ↔ 0 < (su.ttlOf e).toNat := by
    rw [Nat.pos_iff_ne_zero, ne_eq, ne_eq, ← UInt32.toNat_inj]
    rfl
  rw [Store.isTtlExpired, heff, hts, Setup.deadline, decide_eq_true_eq]
  generalize (su.ttlOf e).toNat = ttl at hzero ⊢
  have hsub (hlt : e.ts < now) : (now - e.ts).toNat = now.toNat - e.ts.toNat :=
    UInt32.toNat_sub_of_le _ _ (UInt32.le_of_lt hlt)
  split
  · next hdue =>
    simp only [Option.mem_def, Option.some.injEq, exists_eq_left']
    constructor
    · rintro ⟨hpos, hlt, hle⟩
      rw [hsub hlt] at hle
      have := UInt32.lt_iff_toNat_lt.1 hlt
      omega
    · intro hle
      have hpos := hzero.1 hdue.1
      have hlt : e.ts < now := UInt32.lt_iff_toNat_lt.2 (by omega)
      exact ⟨hpos, hlt, by rw [hsub hlt]; omega⟩
  · next hdue =>
    simp only [Option.mem_def, reduceCtorEq, false_and, exists_false, iff_false]
    rintro ⟨hpos, hlt, hle⟩
    rw [hsub hlt] at hle
    have := UInt32.lt_iff_toNat_lt.1 hlt
    exact hdue ⟨hzero.2 hpos, by omega⟩

/-- What stands where a record is, is its value. -/
theorem Disk.valueAt_eq {pre : Path} {count : Nat} (hd : Disk pre count fs L) {t : Located}
    (hhas : L.Has t) (hpre : su.basePrefix = pre) :
    su.valueAt fs t.seg t.off = some t.record.value := by
  subst hpre
  obtain ⟨g, hg, rest, hrest⟩ := hhas
  obtain ⟨i, hi, hdata⟩ := hd.dir_segment hg
  rw [Setup.valueAt, FileSystem.file_eq_some hi, Option.map_some, hdata]
  simp only [Nat.add_assoc, ← List.drop_drop, ← hrest, Record.take_bytes, RecordHeader.decode_encode]
  rw [List.drop_drop, Record.value_bytes]

/-- What entries that lead to records show of a key is what its kept entry leads to. -/
theorem Held.shown_eq (h : Held su b m st fs L) {es : List IndexEntry} (hsub : es ⊆ L.entries)
    (hsound : L.Sound) (huntied : su.Untied es) (order : IterationOrder) (now : UInt32) (k : Key) :
    su.shown order fs es now k = ((su.keptEntry es k).bind (su.lead fs)).bind (shownAt now) := by
  rw [Setup.shown]
  generalize hst₀ : ({ (su.object order).configured su.pre su.segmentSize su.segmentCount with
    index := es.foldl (fun idx e => e.apply idx) ∅ } : Store) = st₀
  have hloads : st₀.Loads su es := by
    rw [← hst₀]
    exact ⟨rfl, rfl, rfl⟩
  have hpre₀ : st₀.basePrefix = st.basePrefix := by
    rw [h.pre, ← hst₀]
    rfl
  rw [hloads.kept huntied k]
  cases hkept : su.keptEntry es k with
  | none => rfl
  | some e =>
    rw [Setup.keptEntry, Option.filter_eq_some_iff] at hkept
    have hmem := List.mem_of_find?_eq_some hkept.1
    obtain ⟨t, ⟨-, hvalue⟩, hhas, hoff, -⟩ :=
      hsound e (hsub ((standingEntries_sublist es).subset hmem)) (not_removes hmem)
    have hd := h.rep.disk
    -- the entry points at the record in the bits the index keeps
    have hseg : e.seg.toNat % 2 ^ 8 = t.seg := by
      obtain ⟨g, hg, -⟩ := hhas
      have hlt := Nat.lt_trans (hd.ok.segs_lt _ g hg) (spanOf_lt hd.lt)
      have := congrArg (fun v : IndexValue => v.segment.toNat) hvalue
      exact this.trans (Nat.mod_eq_of_lt hlt)
    have hoff' : e.off.toNat % 2 ^ 24 = t.off := by
      have := congrArg (fun v : IndexValue => v.offset.toNat) hvalue
      exact (UInt24.toNat_ofNat_mod _).symm.trans (this.trans (UInt24.toNat_ofNat hoff))
    have hfetch : st₀.fetch fs e.value = some t.record.value := by
      rw [hvalue]
      exact hd.fetch_eq hhas hoff hpre₀
    rw [Option.map_some, Option.filter_some, Option.bind_some, Setup.lead, hseg, hoff',
      hd.valueAt_eq hhas h.pre.symm, Option.map_some, Option.bind_some, shownAt]
    by_cases hexp : st₀.isTtlExpired now e.value.timestamp e.value.ttl.toNat = true
    · rw [hexp, if_pos ((hloads.isTtlExpired_iff e now).1 hexp)]
      rfl
    · rw [if_neg fun h => hexp ((hloads.isTtlExpired_iff e now).2 h), if_pos (by simpa using hexp),
        Option.bind_some, hfetch]

/-- Deadlines are times that the clock can show, and not its first. -/
theorem Setup.deadline_bounds {e : IndexEntry} {due : Nat} (h : su.deadline e = some due) :
    0 < due ∧ due < 2 ^ 32 := by
  rw [Setup.deadline] at h
  split at h
  · next hdue =>
    have hpos : 0 < (su.ttlOf e).toNat :=
      Nat.pos_of_ne_zero fun h0 => hdue.1 (UInt32.toNat_inj.1 h0)
    obtain rfl := Option.some.inj h
    exact ⟨by omega, hdue.2⟩
  · cases h

/-- What is shown at all times tells what it comes from. -/
theorem bind_shownAt_inj {a b : Option (Value × Option Nat)}
    (ha : ∀ p ∈ a, ∀ due ∈ p.2, 0 < due ∧ due < 2 ^ 32)
    (hb : ∀ p ∈ b, ∀ due ∈ p.2, 0 < due ∧ due < 2 ^ 32)
    (h : ∀ now, a.bind (shownAt now) = b.bind (shownAt now)) : a = b := by
  -- at the first time nothing has expired
  have hfirst {c : Option (Value × Option Nat)} (hc : ∀ p ∈ c, ∀ due ∈ p.2, 0 < due ∧ due < 2 ^ 32) :
      c.bind (shownAt 0) = c.map Prod.fst := by
    cases c with
    | none => rfl
    | some p =>
      refine if_neg ?_
      rintro ⟨due, hdue, hle⟩
      exact absurd (hc p rfl due hdue).1 (Nat.not_lt.2 hle)
  -- at its own deadline a value is no longer shown, so the other has a deadline too, and no later
  have hle {v v' : Value} {d d' : Option Nat} (hd : ∀ due ∈ d, 0 < due ∧ due < 2 ^ 32)
      (hsame : ∀ now, shownAt now (v, d) = shownAt now (v', d')) {due : Nat} (hdue : d = some due) :
      ∃ due' ∈ d', due' ≤ due := by
    have hnow : (UInt32.ofNat due).toNat = due := Nat.mod_eq_of_lt (hd due hdue).2
    have hgone : shownAt (UInt32.ofNat due) (v, d) = none := by
      rw [shownAt, if_pos ⟨due, hdue, Nat.le_of_eq hnow.symm⟩]
    rw [hsame, shownAt] at hgone
    split at hgone
    · next hex => rwa [hnow] at hex
    · cases hgone
  have hvalue := (hfirst ha).symm.trans ((h 0).trans (hfirst hb))
  cases a with
  | none =>
    cases b with
    | none => rfl
    | some q => cases hvalue
  | some p =>
    cases b with
    | none => cases hvalue
    | some q =>
      obtain ⟨v, d⟩ := p
      obtain ⟨v', d'⟩ := q
      obtain rfl : v = v' := Option.some.inj hvalue
      have hda := ha _ rfl
      have hdb := hb _ rfl
      have hd : d = d' := by
        cases d with
        | none =>
          cases d' with
          | none => rfl
          | some due' =>
            obtain ⟨due, hdue, -⟩ := hle hdb (fun now => (h now).symm) rfl
            cases hdue
        | some due =>
          obtain ⟨due', rfl, hle'⟩ := hle hda h rfl
          obtain ⟨due'', hdue'', hle''⟩ := hle hdb (fun now => (h now).symm) rfl
          cases hdue''
          rw [Nat.le_antisymm hle'' hle']
      rw [hd]

/-- The deadlines an entry leads to. -/
theorem Setup.lead_bounds {o : Option IndexEntry} : ∀ p ∈ o.bind (su.lead fs), ∀ due ∈ p.2,
    0 < due ∧ due < 2 ^ 32 := by
  intro p hp due hdue
  obtain ⟨e, -, hlead⟩ := Option.bind_eq_some_iff.1 hp
  rw [Setup.lead, Option.map_eq_some_iff] at hlead
  obtain ⟨v, -, rfl⟩ := hlead
  exact Setup.deadline_bounds hdue

/-- Removing keys that are not there changes nothing. -/
theorem foldl_apply_removes {idx : Index} {es : List IndexEntry}
    (h : ∀ e ∈ es, e.Removes ∧ idx.lookup e.key = none) :
    es.foldl (fun idx e => e.apply idx) idx = idx := by
  induction es with
  | nil => rfl
  | cons e es ih =>
    obtain ⟨hrem, hnone⟩ := h e List.mem_cons_self
    have herase : e.apply idx = idx := by
      rw [IndexEntry.apply_of_removes hrem]
      refine AList.ext (List.kerase_of_notMem_keys ?_)
      exact AList.lookup_eq_none.1 hnone
    rw [List.foldl_cons, herase]
    exact ih fun e' he' => h e' (List.mem_cons_of_mem _ he')

/-- A cut that takes off nothing but removals of keys that are not there. -/
theorem foldl_apply_cut {n : Nat} {es : List IndexEntry}
    (h : ∀ e ∈ es.drop (wholeEntries n es).length, e.Removes ∧
      ∀ e' ∈ standingEntries (wholeEntries n es), e'.key ≠ e.key) :
    es.foldl (fun idx e => e.apply idx) (∅ : Index)
      = (wholeEntries n es).foldl (fun idx e => e.apply idx) ∅ := by
  conv_lhs => rw [← List.prefix_iff_eq_append.1 (wholeEntries_isPrefix n es)]
  rw [List.foldl_append]
  refine foldl_apply_removes fun e he => ⟨(h e he).1, ?_⟩
  rw [lookup_foldl_apply_empty, Option.map_eq_none_iff]
  exact List.find?_eq_none.2 fun e' he' => by simpa using (h e he).2 e' he'

end truncating

/-- **A truncated index file**: after any run, opening the files with the index file cut to its first
`n` bytes shows what opening them as they are does, if and only if, for every key, the entry that
counts among those wholly within the first `n` bytes leads to what the one that counts among all
entries leads to.  Where eviction has to choose between entries of equal rank, it is enough that the cut
takes off nothing but removals of keys that are not there. -/
theorem truncated_index_iff (su : Setup) (order : IterationOrder) (fs : FileSystem)
    (hstart : su.Starts order fs) (ops : List Operation)
    (hsmall : su.SmallRun ops (Prog.exec posix (su.start order) fs))
    (hord : Operation.Orderly false ops) (s : Store × FileSystem) (hs : su.reach order fs ops = s)
    (es : List IndexEntry) (hes : s.2.file (storePath su.basePrefix .index) = some (entriesBytes es))
    (n : Nat) (order' : IterationOrder)
    (hwhole : ∀ x ∈ Prog.trace posix (su.start order') s.2, su.Small x.2)
    (hcut : ∀ x ∈ Prog.trace posix (su.start order')
      (s.2.truncate (storePath su.basePrefix .index) n), su.Small x.2) :
    (su.Untied (wholeEntries n es) → su.Untied es →
      ((∀ clk key, su.getAfter order' (s.2.truncate (storePath su.basePrefix .index) n) clk key
          = su.getAfter order' s.2 clk key) ↔
        ∀ k, (su.keptEntry (wholeEntries n es) k).bind (su.lead s.2)
          = (su.keptEntry es k).bind (su.lead s.2))) ∧
    ((∀ e ∈ es.drop (wholeEntries n es).length, e.Removes ∧
        ∀ e' ∈ standingEntries (wholeEntries n es), e'.key ≠ e.key) →
      ∀ clk key, su.getAfter order' (s.2.truncate (storePath su.basePrefix .index) n) clk key
        = su.getAfter order' s.2 clk key) := by
  obtain ⟨L, h, hsound⟩ := hstart.reach hsmall hord
  rw [hs] at h
  have hindex : s.2.file (storePath su.basePrefix .index) = some (entriesBytes L.entries) := by
    rw [← h.pre, h.rep.disk.index, h.indexTail, List.append_nil]
  obtain rfl := entriesBytes_inj (Option.some.inj (hes.symm.trans hindex))
  have hall : s.2.truncate (storePath su.basePrefix .index) (entriesBytes L.entries).length = s.2 := by
    obtain ⟨i, hi, hdata⟩ := Option.map_eq_some_iff.1 hindex
    rw [FileSystem.truncate, hi]
    dsimp only
    rw [← hdata, List.take_length, FileSystem.setData_data]
  have hgetAll := h.getAfter_truncate hsound (entriesBytes L.entries).length order' (by rwa [hall])
  rw [hall, wholeEntries_self] at hgetAll
  have hgetCut := h.getAfter_truncate hsound n order' hcut
  have hsub : wholeEntries n L.entries ⊆ L.entries := (wholeEntries_isPrefix n L.entries).subset
  constructor
  · intro huntied huntied'
    have heq (clk : Clock) (key : Buf) :
        su.getAfter order' (s.2.truncate (storePath su.basePrefix .index) n) clk key
            = su.getAfter order' s.2 clk key ↔
          ((su.keptEntry (wholeEntries n L.entries) key.bytes).bind (su.lead s.2)).bind
              (shownAt clk.time)
            = ((su.keptEntry L.entries key.bytes).bind (su.lead s.2)).bind (shownAt clk.time) := by
      rw [hgetCut, hgetAll, h.shown_eq hsub hsound huntied,
        h.shown_eq (List.Subset.refl _) hsound huntied']
    refine ⟨fun hsame k => ?_, fun hlead clk key => ?_⟩
    · refine bind_shownAt_inj Setup.lead_bounds Setup.lead_bounds fun now => ?_
      exact (heq ⟨now, 0, 0⟩ (.at k)).1 (hsame _ _)
    · rw [heq, hlead]
  · intro hdrop clk key
    rw [hgetCut, hgetAll, Setup.shown, Setup.shown, foldl_apply_cut hdrop]

/-- Four keys are put, and the first of them once more with the same value. -/
def puttingAgain : List Operation :=
  [97, 98, 99, 100, 97].map fun k => .put ⟨0, 0, 0⟩ (.at [k]) (.at [k]) 0 0 0

/-- The entries of their index file. -/
def puttingAgainEntries : List IndexEntry :=
  [(97, 0), (98, 27), (99, 54), (100, 81), (97, 108)].map fun e =>
    ⟨[e.1], 0, e.2, 0, 0, 0, Nat.le_add_left 1 63⟩

/-- The cut takes off the last entry, but an earlier one leads to the same value. -/
theorem truncated_index_iff_sample :
    let s := sampleSetup.reach .recent .empty puttingAgain
    ∀ clk key, sampleSetup.getAfter .recent (s.2.truncate (storePath ['a'] .index) 76) clk key
      = sampleSetup.getAfter .recent s.2 clk key := by
  refine ((truncated_index_iff sampleSetup .recent .empty sampleSetup_starts puttingAgain
    (by decide +kernel) (by decide) _ rfl puttingAgainEntries (by decide +kernel) 76 .recent
    (by decide +kernel) (by decide +kernel)).1 (by decide +kernel) (by decide +kernel)).2 fun k => ?_
  by_cases hk : k ∈ puttingAgainEntries.map IndexEntry.key
  · revert k
    decide +kernel
  · have hnone (es : List IndexEntry) (hsub : es ⊆ puttingAgainEntries) :
        sampleSetup.keptEntry es k = none := by
      rw [Setup.keptEntry, find?_standingEntries_eq_none]
      · rfl
      · rintro ⟨e, he, rfl⟩
        exact hk (List.mem_map_of_mem (hsub he))
    rw [hnone _ (wholeEntries_isPrefix 76 _).subset, hnone _ (List.Subset.refl _)]

/-- With the index file cut to nothing, the one record of the store is forgotten, though it still stands
in its segment. -/
theorem truncated_index_forgets :
    let s := sampleSetup.reach .recent .empty [.put ⟨0, 0, 0⟩ (.at [97]) (.at [1]) 0 0 0]
    sampleSetup.getAfter .recent s.2 ⟨0, 0, 0⟩ (.at [97]) = some [1] ∧
      ¬∀ clk key, sampleSetup.getAfter .recent (s.2.truncate (storePath ['a'] .index) 0) clk key
        = sampleSetup.getAfter .recent s.2 clk key := by
  intro s
  have hwhole : sampleSetup.getAfter .recent s.2 ⟨0, 0, 0⟩ (.at [97]) = some [1] := by
    decide +kernel
  have hcut : sampleSetup.getAfter .recent (s.2.truncate (storePath ['a'] .index) 0) ⟨0, 0, 0⟩
      (.at [97]) = none := by
    decide +kernel
  refine ⟨hwhole, fun h => ?_⟩
  cases hcut.symm.trans ((h _ _).trans hwhole)

end MicroStore
