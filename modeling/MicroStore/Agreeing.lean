import MicroStore.Running

/-!
# Files that disagree

`get` reads at the place the index names and does not look at the key it finds there, so an index file
that disagrees with the segments makes it return the value of another key (`get_reads_other_key`).  On
files that agree (`Setup.Agrees`) it returns the value of the right record, whatever follows
(`get_reads_own_key`).

## Agreement

`Setup.Agrees` is a condition on the bytes of the files and on nothing else: the index file consists of
whole entries, and the last one of each key either deletes it or describes a record that stands where it
says.  The segments may hold anything besides, such as records nothing leads to, torn frames or bytes
that are no records at all.

## From agreement to runs

The records that the entries lead to make up a map, and the log of these segments with this map is one
the store represents (`Setup.foundLog`, `Setup.Agrees.wp_start`).  From there the invariant of runs
(`Held`) takes over; in it the index leads to records of its keys, which is `GetsOwn`.
-/

set_option autoImplicit false

namespace MicroStore

/-- Whenever `get` finds something, there is a record of that key at the place the index names, it is
not deleted, and its value is what `get` returns. -/
def GetsOwn (s : Store × FileSystem) : Prop :=
  ∀ (clk : Clock) (key : Buf) (v : Value), (Prog.exec posix (s.1.getValue clk key) s.2).1.1 = some v →
    ∃ (e : IndexValue) (r : Record) (file : Bytes), s.1.indexFind key.bytes = some e ∧
      s.2.file (s.1.segmentName e.segment.toNat) = some file ∧
      r.bytes <+: file.drop e.offset.toNat ∧ ¬r.deletes ∧ r.key = key.bytes ∧ r.value = v

/-- The entry is that of a record of the key, not deleted, at the place the entry names. -/
def Setup.EntryAgrees (su : Setup) (fs : FileSystem) (k : Key) (e : IndexValue) : Prop :=
  e.segment.toNat < spanOf su.segments.toNat ∧
    ∃ (r : Record) (file : Bytes),
      fs.file (storePath su.basePrefix (.segment e.segment.toNat)) = some file ∧
      r.bytes <+: file.drop e.offset.toNat ∧ r.key = k ∧ ¬r.deletes ∧
      e = indexValue e.segment.toNat e.offset.toNat r.hdr.timestamp r.hdr.ttl.toNat r.hdr.priority

/-- The files agree: recovery has nothing to finish, and the index file consists of whole entries, of
which the last one of each key deletes it or is that of a record. -/
structure Setup.Agrees (su : Setup) (fs : FileSystem) (es : List IndexEntry) : Prop where
  /-- Different files have different names. -/
  names : NamesOk su.basePrefix
  /-- Recovery has nothing to finish. -/
  settled : Settled su.basePrefix fs
  /-- The index file consists of these entries. -/
  index : fs.file (storePath su.basePrefix .index) = some (entriesBytes es)
  /-- There are no more entries than a store can address. -/
  length : es.length ≤ 2 ^ 31
  /-- What they lead to at a key is a record of it. -/
  entries : ∀ k e, (es.foldl (fun idx e => e.apply idx) (∅ : Index)).lookup k = some e →
    su.EntryAgrees fs k e

section agreeing

variable {su : Setup} {fs : FileSystem} {es : List IndexEntry}

/-- The log of arbitrary segment files with an index. -/
def Setup.foundLog (su : Setup) (fs : FileSystem) (es : List IndexEntry) (m : Live) : Log where
  segs s := if s < spanOf su.segments.toNat then
    (fs.file (storePath su.basePrefix (.segment s))).map fun bs => ⟨[], bs⟩ else none
  live := m
  saved := m
  entries := es
  indexTail := []

/-- The records that the entries lead to. -/
theorem Setup.Agrees.exists_live (h : su.Agrees fs es) : ∃ m : Live,
    Index.Shows (es.foldl (fun idx e => e.apply idx) ∅) m ∧
      ∀ k t, m k = some t → (su.foundLog fs es m).Has t ∧ t.record.key = k ∧ ¬t.record.deletes ∧
        t.off < 2 ^ 24 := by
  have hstep (k : Key) : ∃ o : Option Located,
      (es.foldl (fun idx e => e.apply idx) (∅ : Index)).lookup k = o.map Located.indexValue ∧
        ∀ t, o = some t → (∀ m, (su.foundLog fs es m).Has t) ∧ t.record.key = k ∧
          ¬t.record.deletes ∧ t.off < 2 ^ 24 := by
    cases he : (es.foldl (fun idx e => e.apply idx) (∅ : Index)).lookup k with
    | none => exact ⟨none, rfl, nofun⟩
    | some e =>
      obtain ⟨hlt, r, file, hfile, hpre, hkey, hdel, hval⟩ := h.entries k e he
      refine ⟨some ⟨e.segment.toNat, e.offset.toNat, r⟩, congrArg some hval, fun t ht => ?_⟩
      cases ht
      refine ⟨fun m => ⟨⟨[], file⟩, ?_, hpre⟩, hkey, hdel, e.offset.toNat_lt⟩
      rw [Setup.foundLog]
      dsimp only
      rw [if_pos hlt, hfile]
      rfl
  choose m hm ht using hstep
  exact ⟨m, hm, fun k t h => ⟨(ht k t h).1 m, (ht k t h).2⟩⟩

/-- Opening files that agree. -/
theorem Setup.Agrees.wp_start (h : su.Agrees fs es) (order : IterationOrder) :
    su.env.wp (su.start order) (fun st fs' => ∃ m L, Held su false m st fs' L) fs := by
  obtain ⟨m, hshows, hm⟩ := h.exists_live
  refine su.wp_start order fun st hpre hcount httl hmax hvalid hcool hbuf hindex _ => ?_
  have hE : su.env.Fits st.basePrefix st.count := by
    rw [hpre, Store.count, hcount]
    exact su.fits
  have hd : Disk st.basePrefix st.count fs (su.foundLog fs es m) := by
    rw [hpre, Store.count, hcount]
    refine ⟨h.names, su.segments.toNat_lt, ?_, fun s hs => ?_, ?_, h.settled⟩
    · refine ⟨fun s g hg => ?_, fun _ _ ht => ht, fun k t ht => (hm k t ht).1,
        fun k t ht => (hm k t ht).2.1, fun k t ht => (hm k t ht).2.2.1,
        fun k t ht => (hm k t ht).2.2.2, hshows, ?_⟩
      · by_contra hs
        rw [Setup.foundLog] at hg
        dsimp only at hg
        rw [if_neg hs] at hg
        cases hg
      · have hlen := h.length
        change 25 * es.length ≤ _
        omega
    · rw [Setup.foundLog]
      dsimp only
      rw [if_pos hs, Option.map_map]
      cases fs.file (storePath su.basePrefix (.segment s)) <;> rfl
    · rw [h.index]
      exact congrArg some (List.append_nil _).symm
  refine wp_initFiles hE hd readEntry_nil hvalid (.inr hcool) hbuf hindex (fun _ _ _ _ => trivial)
    fun st' fs' L' hop => ⟨fun k => (m k).map Located.record, L', ?_⟩
  refine hop.held rfl (fun k t ht => ?_) hpre hcount httl hmax
  have ht : m k = some t := ht
  rw [ht]
  rfl

/-- What the index of a held store leads to. -/
theorem Held.getsOwn {b : Bool} {m : Key → Option Record} {st : Store} {L : Log}
    (h : Held su b m st fs L) : GetsOwn (st, fs) := by
  intro clk key v hv
  rw [h.rep.getValue_exec, Store.visible, Option.map_eq_some_iff] at hv
  obtain ⟨t, ht, rfl⟩ := hv
  have hlive := (Option.filter_eq_some_iff.1 ht).1
  have hsaved := h.rep.disk.ok.sub _ t hlive
  obtain ⟨i, hi, hpre⟩ := h.rep.fetch hlive
  refine ⟨t.indexValue, t.record, _, ?_, FileSystem.file_eq_some hi, hpre, h.rep.disk.ok.put _ t hsaved,
    h.rep.disk.ok.key _ t hsaved, rfl⟩
  rw [Store.indexFind, h.rep.shows, hlive]
  rfl

end agreeing

/-- **`get` never returns another key's value** after an opening of files that agree, in every run in
which no segment file reaches `2 ^ 24` bytes and nothing is put or removed between a manual compaction
and the next opening of the files. -/
theorem get_reads_own_key (su : Setup) (order : IterationOrder) (fs : FileSystem)
    (es : List IndexEntry) (hagrees : su.Agrees fs es)
    (hstart : ∀ x ∈ Prog.trace posix (su.start order) fs, su.Small x.2) (ops : List Operation)
    (hsmall : su.SmallRun ops (Prog.exec posix (su.start order) fs))
    (hord : Operation.Orderly false ops) : GetsOwn (su.reach order fs ops) := by
  obtain ⟨m, L₀, h₀⟩ := Env.exec_of_wp (hagrees.wp_start order) hstart
  obtain ⟨L, h, -⟩ := h₀.run hsmall hord
  exact h.getsOwn

/-- The files after one put. -/
def onePut (key value : UInt8) : FileSystem :=
  (sampleSetup.reach .recent .empty [.put ⟨0, 0, 0⟩ (.at [key]) (.at [value]) 0 0 0]).2

/-- The entry that put makes. -/
def onePutEntry : IndexEntry := ⟨[97], 0, 0, 0, 0, 0, by decide⟩

theorem onePut_agrees : sampleSetup.Agrees (onePut 97 1) [onePutEntry] where
  names := namesOk_of_length_le (by decide)
  settled := .of_none (by decide +kernel)
  index := by decide +kernel
  length := by decide
  entries k e he := by
    have hone : ([onePutEntry].foldl (fun idx e => e.apply idx) (∅ : Index)).lookup k
        = if k = [97] then some (indexValue 0 0 0 0 0) else none := by
      rw [List.foldl_cons, List.foldl_nil, IndexEntry.apply]
      split
      · next h => exact absurd h (by decide)
      · split
        · next hk =>
          rw [hk]
          rfl
        · next hk => exact AList.lookup_insert_ne hk
    rw [hone] at he
    split at he
    · next hk =>
      obtain rfl := Option.some.inj he
      obtain ⟨file, hfile⟩ : ∃ file, (onePut 97 1).file (storePath ['a'] (.segment 0)) = some file :=
        ⟨_, Option.eq_some_of_isSome (by decide +kernel)⟩
      refine ⟨by decide, putRecord (.at [97]) (.at [1]) 0 0 0 (by decide) (by decide), file, hfile, ?_,
        hk.symm, by decide, rfl⟩
      have hpre : ((onePut 97 1).file (storePath ['a'] (.segment 0))).map
          (fun file => decide ((putRecord (.at [97]) (.at [1]) 0 0 0 (by decide) (by decide)).bytes
            <+: file)) = some true := by
        decide +kernel
      rw [hfile, Option.map_some, Option.some.injEq, decide_eq_true_eq] at hpre
      exact hpre
    · cases he

theorem get_reads_own_key_sample : GetsOwn (sampleSetup.reach .recent (onePut 97 1) sampleOperations) :=
  get_reads_own_key sampleSetup .recent (onePut 97 1) [onePutEntry] onePut_agrees (by decide +kernel)
    sampleOperations (by decide +kernel) (by decide)

/-- The index file of one store with the segments of another. -/
def mixedUp : FileSystem :=
  (onePut 97 1).setData (((onePut 97 1).dir (storePath ['a'] (.segment 0))).getD 0)
    (((onePut 98 2).file (storePath ['a'] (.segment 0))).getD [])

/-- On files that disagree, `get` returns the value of the other key. -/
theorem get_reads_other_key : ¬GetsOwn (sampleSetup.reach .recent mixedUp []) := by
  intro h
  have hv : (Prog.exec posix ((sampleSetup.reach .recent mixedUp []).1.getValue ⟨0, 0, 0⟩ (.at [97]))
      (sampleSetup.reach .recent mixedUp []).2).1.1 = some [2] := by
    decide +kernel
  obtain ⟨e, r, file, he, hfile, hpre, -, hkey, -⟩ := h _ _ _ hv
  have hplace : ((sampleSetup.reach .recent mixedUp []).1.indexFind [97]).map
      (fun e => (e.segment, e.offset.toNat)) = some (0, 0) := by
    decide +kernel
  have he : (sampleSetup.reach .recent mixedUp []).1.indexFind [97] = some e := he
  rw [he, Option.map_some, Option.some.injEq, Prod.mk.injEq] at hplace
  have hbyte : ((sampleSetup.reach .recent mixedUp []).2.file
      ((sampleSetup.reach .recent mixedUp []).1.segmentName 0)).map
      (fun file => (file.drop headerSize).head?) = some (some 98) := by
    decide +kernel
  rw [hplace.1] at hfile
  have hfile : (sampleSetup.reach .recent mixedUp []).2.file
      ((sampleSetup.reach .recent mixedUp []).1.segmentName 0) = some file := hfile
  rw [hfile, Option.map_some, Option.some.injEq] at hbyte
  rw [hplace.2, List.drop_zero] at hpre
  obtain ⟨rest, rfl⟩ := hpre
  have hkey : r.key = [97] := hkey
  rw [Record.drop_bytes, hkey] at hbyte
  cases hbyte

end MicroStore
