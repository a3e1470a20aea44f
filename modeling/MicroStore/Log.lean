import MicroStore.Writing
import Mathlib.Data.List.TakeWhile

/-!
# The log of records and its index

What a store keeps, seen as mathematics: segments are sequences of records, the index file is a sequence
of entries, and an index is a map from keys to the places of records.  Nothing here reads or writes a
file.

## What is here

* `Located`, `locate` — a record with its place, and the places of the records of a segment, each of
  which begins where the one before it ends.
* `Live`, `replay` — a map from keys to located records, and the meaning of a sequence of records: the
  last one of a key wins, a tombstone drops the key.
* `Index.Shows` — an index represents such a map.  It keeps the segment, 24 bits of the offset, the
  time, the TTL and the priority of each record.
* `scan_shows`, `scanned` — a scan of the bytes of some records leaves the index that represents their
  replay.
* `entriesBytes`, `load_entriesBytes` — loading the bytes of some entries replays these entries.
* `IndexEntry.Leads` — an entry is that of a located record; `Located.entry_shows` says that replaying
  it does to an index what replaying the record does to a map.

So the two ways in which `init` may find the index of a store are two replays, and it is on these that
the modules above compare them.
-/

set_option autoImplicit false

namespace MicroStore

/-! ## Places of records

Offsets are natural numbers here; what of them fits the index is a matter of `Index.Shows`. -/

/-- A record with the segment and the offset it stands at. -/
structure Located where
  /-- The number of the segment. -/
  seg : Nat
  /-- The offset within it. -/
  off : Nat
  /-- The record. -/
  record : Record

/-- The index entry of a record. -/
def Located.indexValue (t : Located) : IndexValue :=
  MicroStore.indexValue t.seg t.off t.record.hdr.timestamp t.record.hdr.ttl.toNat
    t.record.hdr.priority

/-- The places of consecutive records of a segment. -/
def locate (seg : Nat) : Nat → List Record → List Located
  | _, [] => []
  | off, r :: rs => ⟨seg, off, r⟩ :: locate seg (off + r.size) rs

/-- The records of a longer segment. -/
theorem locate_append (seg off : Nat) (rs rs' : List Record) :
    locate seg off (rs ++ rs')
      = locate seg off rs ++ locate seg (off + (recordsBytes rs).length) rs' := by
  induction rs generalizing off with
  | nil => rfl
  | cons r rs ih =>
    rw [List.cons_append, locate, locate, ih, recordsBytes_cons, List.length_append,
      Record.length_bytes, Nat.add_assoc, List.cons_append]

@[simp] theorem length_locate (seg off : Nat) (rs : List Record) :
    (locate seg off rs).length = rs.length := by
  induction rs generalizing off with
  | nil => rfl
  | cons r rs ih => rw [locate, List.length_cons, List.length_cons, ih]

/-- A located record stands between the records before it and those after it. -/
theorem mem_locate {seg off : Nat} {rs : List Record} {t : Located} (h : t ∈ locate seg off rs) :
    t.seg = seg ∧ ∃ before after, rs = before ++ t.record :: after ∧
      t.off = off + (recordsBytes before).length := by
  induction rs generalizing off with
  | nil => cases h
  | cons r rs ih =>
    rcases List.mem_cons.1 h with rfl | h
    · exact ⟨rfl, [], rs, rfl, rfl⟩
    · obtain ⟨hs, before, after, rfl, ho⟩ := ih h
      refine ⟨hs, r :: before, after, rfl, ?_⟩
      rw [ho, recordsBytes_cons, List.length_append, Record.length_bytes, Nat.add_assoc]

/-- A located record is one of the records. -/
theorem record_mem_of_mem_locate {seg off : Nat} {rs : List Record} {t : Located}
    (h : t ∈ locate seg off rs) : t.record ∈ rs := by
  obtain ⟨-, before, after, rfl, -⟩ := mem_locate h
  exact List.mem_append_right _ List.mem_cons_self

/-- Each record is located. -/
theorem exists_mem_locate {seg off : Nat} {rs : List Record} {r : Record} (h : r ∈ rs) :
    ∃ t ∈ locate seg off rs, t.record = r := by
  induction rs generalizing off with
  | nil => cases h
  | cons r' rs ih =>
    rcases List.mem_cons.1 h with rfl | h
    · exact ⟨_, List.mem_cons_self, rfl⟩
    · obtain ⟨t, ht, hr⟩ := ih h
      exact ⟨t, List.mem_cons_of_mem _ ht, hr⟩

/-- The bytes at the offset of a located record begin with that record. -/
theorem prefix_of_mem_locate {seg : Nat} {rs : List Record} {t : Located} (tail : Bytes)
    (h : t ∈ locate seg 0 rs) : t.record.bytes <+: (recordsBytes rs ++ tail).drop t.off := by
  obtain ⟨-, before, after, rfl, ho⟩ := mem_locate h
  rw [ho, Nat.zero_add, recordsBytes_append, List.append_assoc, List.drop_left,
    recordsBytes_cons, List.append_assoc]
  exact List.prefix_append ..

/-! ## Replaying records

A fold over the located records, in the order of a scan. -/

/-- What a key maps to: the place of its record. -/
abbrev Live := Key → Option Located

/-- What one more record does. -/
def Live.apply (m : Live) (t : Located) : Live :=
  Function.update m t.record.key (if t.record.deletes then none else some t)

/-- The meaning of a sequence of records. -/
def replay (l : List Located) (m : Live) : Live := l.foldl Live.apply m

/-- First some records, then others. -/
theorem replay_append (l l' : List Located) (m : Live) :
    replay (l ++ l') m = replay l' (replay l m) := List.foldl_append

@[simp] theorem replay_nil (m : Live) : replay [] m = m := rfl

@[simp] theorem replay_cons (t : Located) (l : List Located) (m : Live) :
    replay (t :: l) m = replay l (m.apply t) := rfl

/-- A record at its own key. -/
theorem Live.apply_self (m : Live) (t : Located) :
    m.apply t t.record.key = if t.record.deletes then none else some t :=
  Function.update_self ..

/-- A record at other keys. -/
theorem Live.apply_ne {m : Live} {t : Located} {k : Key} (h : k ≠ t.record.key) :
    m.apply t k = m k := Function.update_of_ne h ..

/-- What is live after a replay was live before or is one of the records. -/
theorem replay_eq_some {l : List Located} {m : Live} {k : Key} {t : Located}
    (h : replay l m k = some t) :
    m k = some t ∨ t ∈ l ∧ t.record.key = k ∧ ¬t.record.deletes := by
  induction l generalizing m with
  | nil => exact .inl h
  | cons t' l ih =>
    rcases ih h with h | ⟨h1, h2⟩
    · by_cases hk : k = t'.record.key
      · subst hk
        rw [Live.apply_self] at h
        split at h
        · cases h
        · cases h
          exact .inr ⟨List.mem_cons_self, rfl, ‹_›⟩
      · rw [Live.apply_ne hk] at h
        exact .inl h
    · exact .inr ⟨List.mem_cons_of_mem _ h1, h2⟩

/-- Without tombstones, a key with a record stays live. -/
theorem replay_isSome {l : List Located} {m : Live} {k : Key}
    (hl : ∀ t ∈ l, ¬t.record.deletes)
    (h : (m k).isSome ∨ ∃ t ∈ l, t.record.key = k) : (replay l m k).isSome := by
  induction l generalizing m with
  | nil =>
    rcases h with h | ⟨t, ht, -⟩
    · exact h
    · cases ht
  | cons t' l ih =>
    refine ih (fun t ht => hl t (List.mem_cons_of_mem _ ht)) ?_
    by_cases hk : k = t'.record.key
    · left
      rw [hk, Live.apply_self, if_neg (hl t' List.mem_cons_self)]
      rfl
    · rw [Live.apply_ne hk]
      refine h.imp_right fun ⟨t, ht, htk⟩ => ?_
      rcases List.mem_cons.1 ht with rfl | ht
      · exact absurd htk.symm hk
      · exact ⟨t, ht, htk⟩

/-- **Copying the live records keeps the map.**  Replaying a sequence that holds the live records
and nothing else makes the same keys live, with the same records. -/
theorem replay_live {m : Live} {seg : Nat} {rs : List Record}
    (hm : ∀ k t, m k = some t → t.record.key = k ∧ ¬t.record.deletes)
    (hlive : ∀ k t, m k = some t → t.record ∈ rs)
    (honly : ∀ r ∈ rs, ∃ k t, m k = some t ∧ t.record = r) (k : Key) :
    (replay (locate seg 0 rs) (fun _ => none) k).map Located.record
      = (m k).map Located.record := by
  have hrs (r : Record) (hr : r ∈ rs) : ∃ t, m r.key = some t ∧ t.record = r ∧ ¬r.deletes := by
    obtain ⟨k, t, ht, rfl⟩ := honly r hr
    obtain ⟨hk, hd⟩ := hm k t ht
    exact ⟨t, hk ▸ ht, rfl, hd⟩
  cases hk : m k with
  | some t =>
    have hsome : (replay (locate seg 0 rs) (fun _ => none) k).isSome := by
      refine replay_isSome (fun t ht => ?_) (.inr ?_)
      · obtain ⟨_, _, _, h⟩ := hrs _ (record_mem_of_mem_locate ht)
        exact h
      · obtain ⟨t', ht', he⟩ := @exists_mem_locate seg 0 _ _ (hlive k t hk)
        exact ⟨t', ht', by rw [he]; exact (hm k t hk).1⟩
    obtain ⟨t', ht'⟩ := Option.isSome_iff_exists.1 hsome
    obtain ⟨hmem, hkey, -⟩ := (replay_eq_some ht').resolve_left (by simp)
    obtain ⟨t'', ht'', he, -⟩ := hrs _ (record_mem_of_mem_locate hmem)
    rw [hkey, hk] at ht''
    cases ht''
    rw [ht', Option.map_some, Option.map_some, he]
  | none =>
    cases hr : replay (locate seg 0 rs) (fun _ => none) k with
    | none => rfl
    | some t' =>
      obtain ⟨hmem, hkey, -⟩ := (replay_eq_some hr).resolve_left (by simp)
      obtain ⟨t'', ht'', -⟩ := hrs _ (record_mem_of_mem_locate hmem)
      rw [hkey, hk] at ht''
      cases ht''

/-! ## The in-memory index

The index of the source against the map it stands for. -/

/-- The index shows the map: every key at the place of its record. -/
def Index.Shows (idx : Index) (m : Live) : Prop :=
  ∀ k, idx.lookup k = (m k).map Located.indexValue

/-- An index with some of the entries. -/
def Index.Within (idx idx' : Index) : Prop :=
  ∀ k v, idx.lookup k = some v → idx'.lookup k = some v

/-- The part of the map that the index has entries for. -/
def Live.within (m : Live) (idx : Index) : Live :=
  fun k => if (idx.lookup k).isSome then m k else none

/-- Less is live. -/
theorem Live.within_le {m : Live} {idx : Index} (k : Key) (t : Located)
    (h : m.within idx k = some t) : m k = some t := by
  rw [within] at h
  split at h
  · exact h
  · cases h

namespace Index.Shows

variable {idx : Index} {m : Live}

/-- The empty index. -/
theorem empty : Index.Shows ∅ (fun _ => none) := fun _ => rfl

/-- Inserting what a record leads to. -/
theorem insert (h : Shows idx m) {t : Located} (ht : ¬t.record.deletes) :
    Shows (idx.insert t.record.key t.indexValue) (m.apply t) := by
  intro k
  by_cases hk : k = t.record.key
  · subst hk
    rw [AList.lookup_insert, Live.apply_self, if_neg ht, Option.map_some]
  · rw [AList.lookup_insert_ne hk, Live.apply_ne hk, h k]

/-- Erasing the key of a tombstone. -/
theorem erase (h : Shows idx m) {t : Located} (ht : t.record.deletes) :
    Shows (idx.erase t.record.key) (m.apply t) := by
  intro k
  by_cases hk : k = t.record.key
  · subst hk
    rw [AList.lookup_erase, Live.apply_self, if_pos ht, Option.map_none]
  · rw [AList.lookup_erase_ne hk, Live.apply_ne hk, h k]

/-- A part of the index. -/
theorem within (h : Shows idx m) {idx' : Index} (hw : Index.Within idx' idx) :
    Shows idx' (m.within idx') := by
  intro k
  rw [Live.within]
  cases hl : idx'.lookup k with
  | none => rfl
  | some v => exact (hw k v hl).symm.trans (h k)

/-- The whole of it. -/
theorem within_self (h : Shows idx m) : m.within idx = m := by
  funext k
  rw [Live.within, h k]
  cases m k <;> rfl

end Index.Shows

/-- **A scan replays the records it finds**, up to the first frame it cannot read. -/
theorem scan_shows {onDelete : Key → Index → Index} {seg : Nat} {rs : List Record} {tail : Bytes}
    {fuel off : Nat} {idx : Index} {m : Live} (hfuel : rs.length < fuel)
    (hkey : ∀ r ∈ rs, r.key ≠ []) (htail : scanFrame tail = none)
    (hdel : ∀ r ∈ rs, r.deletes → ∀ idx, onDelete r.key idx = idx.erase r.key)
    (h : idx.Shows m) :
    (scan onDelete seg fuel (recordsBytes rs ++ tail) off idx).Shows
      (replay (locate seg off rs) m) := by
  induction rs generalizing fuel off idx m with
  | nil =>
    obtain ⟨fuel, rfl⟩ := Nat.exists_eq_add_of_lt hfuel
    rw [recordsBytes_nil, List.nil_append, scan, htail]
    exact h
  | cons r rs ih =>
    obtain ⟨fuel, rfl⟩ := Nat.exists_eq_add_of_lt (Nat.zero_lt_of_lt hfuel)
    rw [recordsBytes_cons, List.append_assoc, Nat.zero_add, scan,
      scanFrame_bytes (hkey r List.mem_cons_self)]
    dsimp only
    rw [Record.frameSize_hdr, List.drop_left' r.length_bytes]
    refine ih (by simp only [List.length_cons] at hfuel; omega)
      (fun r' hr' => hkey r' (List.mem_cons_of_mem _ hr'))
      (fun r' hr' => hdel r' (List.mem_cons_of_mem _ hr')) ?_
    rw [scanApply]
    split
    · next hd =>
      rw [hdel r List.mem_cons_self hd]
      exact h.erase (t := ⟨seg, off, r⟩) hd
    · next hd => exact h.insert (t := ⟨seg, off, r⟩) hd

/-- Does the record have a key? -/
def Record.keyed (r : Record) : Bool := r.key ≠ []

/-- The key is not empty. -/
theorem Record.keyed_iff {r : Record} : r.keyed = true ↔ r.key ≠ [] := decide_eq_true_iff

/-- What a scan of copied records leads to: it stops at an empty key. -/
def scanned (rs : List Record) : Live := replay (locate 0 0 (rs.takeWhile Record.keyed)) fun _ => none

/-- Where no key is empty a scan finds all records. -/
theorem scanned_eq {rs : List Record} (h : ∀ r ∈ rs, r.key ≠ []) :
    scanned rs = replay (locate 0 0 rs) fun _ => none := by
  rw [scanned, List.takeWhile_eq_self_iff.2 fun r hr => Record.keyed_iff.2 (h r hr)]

/-- What a scan leads to are copied records with their keys. -/
theorem scanned_eq_some {rs : List Record} {k : Key} {t : Located} (h : scanned rs k = some t) :
    t ∈ locate 0 0 rs ∧ t.record.key = k ∧ k ≠ [] ∧ ¬t.record.deletes := by
  obtain ⟨hmem, hk, hd⟩ := (replay_eq_some h).resolve_left (by simp)
  have hne : t.record.keyed = true := List.mem_takeWhile_imp (record_mem_of_mem_locate hmem)
  refine ⟨?_, hk, hk ▸ Record.keyed_iff.1 hne, hd⟩
  rw [← @List.takeWhile_append_dropWhile _ Record.keyed rs, locate_append]
  exact List.mem_append_left _ hmem

/-- A scan of copied records. -/
theorem scan_copies {rs : List Record} {fuel : Nat} (hfuel : rs.length < fuel)
    (hput : ∀ r ∈ rs, ¬r.deletes) :
    Index.Shows (scan (fun _ idx => idx) 0 fuel (recordsBytes rs) 0 ∅) (scanned rs) := by
  have htail : scanFrame (recordsBytes (rs.dropWhile Record.keyed)) = none := by
    cases hd : rs.dropWhile Record.keyed with
    | nil => exact scanFrame_nil
    | cons r rest =>
      have hr := @List.head_dropWhile_not _ Record.keyed rs (by rw [hd]; exact nofun)
      simp only [hd, List.head_cons] at hr
      rw [recordsBytes_cons]
      exact scanFrame_of_key_nil (not_not.1 (of_decide_eq_false hr))
  have h := @scan_shows (fun _ idx => idx) 0 (rs.takeWhile Record.keyed) _ fuel 0 ∅ (fun _ => none)
    (Nat.lt_of_le_of_lt (List.takeWhile_sublist _).length_le hfuel)
    (fun r hr => Record.keyed_iff.1 (List.mem_takeWhile_imp hr)) htail
    (fun r hr hdel => absurd hdel (hput r (List.takeWhile_subset _ hr))) Index.Shows.empty
  rwa [← recordsBytes_append, List.takeWhile_append_dropWhile] at h

/-! ## The index file

Entries are written in two ways: one by one after each put or remove, and all at once by the bulk
write.  Both write the same bytes for the same index value. -/

/-- The bytes of a run of index entries. -/
def entriesBytes (es : List IndexEntry) : Bytes := es.flatMap IndexEntry.bytes

@[simp] theorem entriesBytes_append (es es' : List IndexEntry) :
    entriesBytes (es ++ es') = entriesBytes es ++ entriesBytes es' := List.flatMap_append

@[simp] theorem entriesBytes_cons (e : IndexEntry) (es : List IndexEntry) :
    entriesBytes (e :: es) = e.bytes ++ entriesBytes es := rfl

/-- **Loading an index file replays its entries**, up to the first one it cannot read. -/
theorem load_entriesBytes {es : List IndexEntry} {tail : Bytes} {fuel : Nat} {idx : Index}
    (hfuel : es.length < fuel) (htail : readEntry tail = none) :
    load fuel (entriesBytes es ++ tail) idx = es.foldl (fun idx e => e.apply idx) idx := by
  induction es generalizing fuel idx with
  | nil =>
    obtain ⟨fuel, rfl⟩ := Nat.exists_eq_add_of_lt hfuel
    rw [entriesBytes, List.flatMap_nil, List.nil_append, load, htail]
    rfl
  | cons e es ih =>
    obtain ⟨fuel, rfl⟩ := Nat.exists_eq_add_of_lt (Nat.zero_lt_of_lt hfuel)
    rw [entriesBytes_cons, List.append_assoc, Nat.zero_add, load, readEntry_bytes]
    dsimp only
    rw [List.drop_left' e.length_bytes]
    exact ih (by simp only [List.length_cons] at hfuel; omega)

/-- The entry that records where a record is, or that its key is gone. -/
def Located.entry (t : Located) : IndexEntry where
  key := t.record.key
  seg := if t.record.deletes then UInt32.ofNat deletedSeg else UInt32.ofNat t.seg
  off := if t.record.deletes then 0 else UInt32.ofNat t.off
  ts := if t.record.deletes then 0 else t.record.hdr.timestamp
  ttl := if t.record.deletes then 0 else t.record.hdr.ttl
  priority := if t.record.deletes then 0 else t.record.hdr.priority
  key_le := t.record.key_le

/-- The index entry that loading makes of an entry of the index file. -/
def IndexEntry.value (e : IndexEntry) : IndexValue :=
  indexValue e.seg.toNat e.off.toNat e.ts e.ttl.toNat e.priority

/-- The entry leads to the record. -/
def IndexEntry.Leads (e : IndexEntry) (t : Located) : Prop :=
  e.key = t.record.key ∧ e.value = t.indexValue

/-- The entry of a put leads to its record. -/
theorem Located.entry_leads {t : Located} (hseg : t.seg < 256) (hoff : t.off < 2 ^ 32)
    (hd : ¬t.record.deletes) : t.entry.Leads t := by
  have hs : (UInt32.ofNat t.seg).toNat = t.seg := Nat.mod_eq_of_lt (by omega)
  have ho : (UInt32.ofNat t.off).toNat = t.off := Nat.mod_eq_of_lt hoff
  refine ⟨rfl, ?_⟩
  simp only [IndexEntry.value, entry, if_neg hd, hs, ho, Located.indexValue]

/-- The entry of a tombstone is a removal. -/
theorem Located.entry_deletes {t : Located} (hd : t.record.deletes) :
    t.entry.seg.toNat = deletedSeg := by
  simp only [entry, if_pos hd]
  rfl

/-- Replaying the entry of a record is replaying the record. -/
theorem Located.entry_shows {t : Located} {idx : Index} {m : Live} (hseg : t.seg < 256)
    (hoff : t.off < 2 ^ 32) (h : idx.Shows m) : (t.entry.apply idx).Shows (m.apply t) := by
  have hs : (UInt32.ofNat t.seg).toNat = t.seg := Nat.mod_eq_of_lt (by omega)
  by_cases hd : t.record.deletes
  · rw [IndexEntry.apply, if_pos (entry_deletes hd)]
    exact h.erase hd
  · have hne : t.entry.seg.toNat ≠ deletedSeg := by
      simp only [entry, if_neg hd, hs, deletedSeg]
      omega
    have hval : t.entry.value = t.indexValue := (entry_leads hseg hoff hd).2
    rw [IndexEntry.value] at hval
    rw [IndexEntry.apply, if_neg hne, hval]
    exact h.insert hd

/-- The entry a bulk rewrite puts down for an index item. -/
def itemEntry (it : IndexItem) (h : it.1.length ≤ maxKeyLen) : IndexEntry where
  key := it.1
  seg := UInt32.ofNat it.2.segment.toNat
  off := UInt32.ofNat it.2.offset.toNat
  ts := it.2.timestamp
  ttl := UInt32.ofNat it.2.ttl.toNat
  priority := it.2.priority
  key_le := h

section itemEntry

variable {it : IndexItem} (h : it.1.length ≤ maxKeyLen)

@[simp] theorem itemEntry_seg : (itemEntry it h).seg.toNat = it.2.segment.toNat :=
  Nat.mod_eq_of_lt (Nat.lt_trans it.2.segment.toNat_lt (by decide))

@[simp] theorem itemEntry_off : (itemEntry it h).off.toNat = it.2.offset.toNat :=
  Nat.mod_eq_of_lt (Nat.lt_trans it.2.offset.toNat_lt (by decide))

@[simp] theorem itemEntry_ttl : (itemEntry it h).ttl.toNat = it.2.ttl.toNat :=
  Nat.mod_eq_of_lt (Nat.lt_trans it.2.ttl.toNat_lt (by decide))

end itemEntry

/-- The entry of an index item has its value. -/
theorem itemEntry_value {it : IndexItem} (h : it.1.length ≤ maxKeyLen) :
    (itemEntry it h).value = it.2 := by
  rw [IndexEntry.value, itemEntry_seg, itemEntry_off, itemEntry_ttl]
  simp only [itemEntry, indexValue, UInt24.ofNat_toNat, UInt8.ofNat_toNat]

/-- Replaying it inserts the item. -/
theorem itemEntry_apply {it : IndexItem} (h : it.1.length ≤ maxKeyLen) (idx : Index) :
    (itemEntry it h).apply idx = idx.insert it.1 it.2 := by
  have hne : (itemEntry it h).seg.toNat ≠ deletedSeg := by
    have := it.2.segment.toNat_lt
    rw [itemEntry_seg, deletedSeg]
    omega
  have hval := itemEntry_value h
  rw [IndexEntry.value] at hval
  rw [IndexEntry.apply, if_neg hne, hval]
  rfl

/-- Replaying the items of an index gives the index back, whatever their order. -/
theorem foldl_insert_lookup {items : List IndexItem} {idx : Index}
    (hperm : items.Perm idx.entries) (k : Key) :
    (items.foldl (fun i it => i.insert it.1 it.2) (∅ : Index)).lookup k = idx.lookup k := by
  have hnd : items.NodupKeys := (List.perm_nodupKeys hperm).2 idx.nodupKeys
  have key : ∀ (l : List IndexItem) (i : Index), l.NodupKeys →
      (l.foldl (fun i it => i.insert it.1 it.2) i).lookup k
        = (l.dlookup k).or (i.lookup k) := by
    intro l
    induction l with
    | nil =>
      intro i _
      rfl
    | cons it l ih =>
      intro i hl
      rw [List.foldl_cons, ih _ (List.nodupKeys_cons.1 hl).2]
      by_cases hk : it.1 = k
      · subst hk
        have hnot : l.dlookup it.1 = none := List.dlookup_eq_none.2 (List.nodupKeys_cons.1 hl).1
        rw [hnot, Option.none_or, AList.lookup_insert, List.dlookup_cons_eq, Option.some_or]
      · rw [AList.lookup_insert_ne (Ne.symm hk), List.dlookup_cons_ne _ _ (Ne.symm hk)]
  rw [key items ∅ hnd, AList.lookup_empty, Option.or_none]
  exact List.perm_dlookup k hnd hperm

end MicroStore
