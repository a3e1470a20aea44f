import MicroStore.Running

/-!
# What an index file stands for

An opening that finds an index file replays it entry by entry and evicts what is too much.  This file
says what is left of that without running either: of every key the last entry counts, a removal counts
for nothing, and of what counts the limit on the records leaves the entries that fewer others outrank
than there may be.

## What is here

* `standingEntries`: the entries that count.  Replaying all entries makes an index of these
  (`lookup_foldl_apply`, `entries_foldl_apply`).
* `Setup.rank` and `Setup.Lasts`: what `evicts_before` compares, computed from an entry of the file,
  and the entries the limit leaves.  An entry that does not last is evicted, whatever the order of
  iteration (`Store.Loads.evicted`).
* `Setup.keptEntry`: the entry an opening leaves for a key.  Where no two entries of equal rank compete
  for the last place (`Setup.Untied`) the index after an opening is exactly that
  (`Store.Loads.kept`); otherwise the order of iteration of the `unordered_map` decides.
* `indexEntries`: the entries of an index file, from its bytes.
-/

set_option autoImplicit false

namespace MicroStore

/-! ## The entries that count -/

/-- The entry marks a removal. -/
def IndexEntry.Removes (e : IndexEntry) : Prop := e.seg.toNat = deletedSeg

instance (e : IndexEntry) : Decidable e.Removes := inferInstanceAs (Decidable (_ = _))

/-- What loading the entry puts into the index. -/
def IndexEntry.item (e : IndexEntry) : IndexItem := ⟨e.key, e.value⟩

/-- The entries that count: the last one of every key, unless it marks a removal. -/
def standingEntries : List IndexEntry → List IndexEntry
  | [] => []
  | e :: es =>
    if ¬e.Removes ∧ ∀ e' ∈ es, e'.key ≠ e.key then e :: standingEntries es else standingEntries es

theorem standingEntries_sublist (es : List IndexEntry) : (standingEntries es).Sublist es := by
  induction es with
  | nil => exact .slnil
  | cons e es ih =>
    rw [standingEntries]
    split
    · exact ih.cons_cons e
    · exact ih.cons e

/-- What counts is no removal. -/
theorem not_removes {es : List IndexEntry} {e : IndexEntry} (h : e ∈ standingEntries es) :
    ¬e.Removes := by
  induction es with
  | nil => cases h
  | cons e' es ih =>
    rw [standingEntries] at h
    split at h
    · next hstands =>
      rcases List.mem_cons.1 h with rfl | h
      · exact hstands.1
      · exact ih h
    · exact ih h

/-- One entry of a key counts. -/
theorem standingEntries_nodup (es : List IndexEntry) :
    ((standingEntries es).map IndexEntry.key).Nodup := by
  induction es with
  | nil => exact .nil
  | cons e es ih =>
    rw [standingEntries]
    split
    · next h =>
      rw [List.map_cons, List.nodup_cons]
      refine ⟨fun hmem => ?_, ih⟩
      obtain ⟨e', he', hkey⟩ := List.mem_map.1 hmem
      exact h.2 e' ((standingEntries_sublist es).subset he') hkey
    · exact ih

/-- The entry that counts for a key is found by its key. -/
theorem find?_standingEntries {es : List IndexEntry} {e : IndexEntry} (h : e ∈ standingEntries es)
    {k : Key} (hk : e.key = k) : (standingEntries es).find? (fun e => e.key = k) = some e := by
  have hnd := standingEntries_nodup es
  generalize standingEntries es = l at h hnd
  induction l with
  | nil => cases h
  | cons e' l ih =>
    rw [List.map_cons, List.nodup_cons] at hnd
    rcases List.mem_cons.1 h with rfl | hl
    · rw [List.find?_cons_of_pos (by simpa using hk)]
    · have hne : e'.key ≠ k := fun he =>
        hnd.1 (List.mem_map.2 ⟨e, hl, hk.trans he.symm⟩)
      rw [List.find?_cons_of_neg (by simpa using hne)]
      exact ih hl hnd.2

/-- A key has an entry that counts only if it has an entry. -/
theorem find?_standingEntries_eq_none {es : List IndexEntry} {k : Key}
    (h : ¬∃ e ∈ es, e.key = k) : (standingEntries es).find? (fun e => e.key = k) = none := by
  refine List.find?_eq_none.2 fun e he => ?_
  have := (standingEntries_sublist es).subset he
  simpa using fun hk => h ⟨e, this, hk⟩

theorem IndexEntry.apply_of_removes {e : IndexEntry} (h : e.Removes) (idx : Index) :
    e.apply idx = idx.erase e.key :=
  if_pos h

theorem IndexEntry.apply_of_not_removes {e : IndexEntry} (h : ¬e.Removes) (idx : Index) :
    e.apply idx = idx.insert e.key e.value :=
  if_neg h

/-- **Replaying entries** leaves at every key what its last entry says, and what was there before at a
key that has none. -/
theorem lookup_foldl_apply (es : List IndexEntry) (idx : Index) (k : Key) :
    (es.foldl (fun idx e => e.apply idx) idx).lookup k
      = if ∃ e ∈ es, e.key = k then
          ((standingEntries es).find? fun e => e.key = k).map IndexEntry.value
        else idx.lookup k := by
  induction es generalizing idx with
  | nil => simp
  | cons e es ih =>
    rw [List.foldl_cons, ih, standingEntries]
    by_cases hlater : ∃ e' ∈ es, e'.key = k
    · -- a later entry decides, and the first one is not asked
      have hfirst : ¬e.Removes ∧ (∀ e' ∈ es, e'.key ≠ e.key) → e.key ≠ k := by
        rintro ⟨-, hne⟩ rfl
        obtain ⟨e', he', hkey⟩ := hlater
        exact hne e' he' hkey
      rw [if_pos hlater, if_pos (hlater.imp fun _ h => ⟨List.mem_cons_of_mem _ h.1, h.2⟩)]
      split
      · next h => rw [List.find?_cons_of_neg (by simpa using hfirst h)]
      · rfl
    · rw [if_neg hlater]
      by_cases hkey : e.key = k
      · rw [if_pos ⟨e, List.mem_cons_self, hkey⟩]
        by_cases hrem : e.Removes
        · rw [IndexEntry.apply_of_removes hrem, if_neg fun h => h.1 hrem,
            find?_standingEntries_eq_none hlater, ← hkey, AList.lookup_erase]
          rfl
        · have hlast : ∀ e' ∈ es, e'.key ≠ e.key := fun e' he' h =>
            hlater ⟨e', he', h.trans hkey⟩
          rw [IndexEntry.apply_of_not_removes hrem, if_pos ⟨hrem, hlast⟩,
            List.find?_cons_of_pos (by simpa using hkey), ← hkey, AList.lookup_insert]
          rfl
      · have hno : ¬∃ e' ∈ e :: es, e'.key = k := by
          rintro ⟨e', he', h⟩
          rcases List.mem_cons.1 he' with rfl | he'
          · exact hkey h
          · exact hlater ⟨e', he', h⟩
        rw [if_neg hno, IndexEntry.apply_ne (Ne.symm hkey)]

/-- The index made of entries alone. -/
theorem lookup_foldl_apply_empty (es : List IndexEntry) (k : Key) :
    (es.foldl (fun idx e => e.apply idx) (∅ : Index)).lookup k
      = ((standingEntries es).find? fun e => e.key = k).map IndexEntry.value := by
  rw [lookup_foldl_apply]
  split
  · rfl
  · next h => rw [find?_standingEntries_eq_none h, AList.lookup_empty, Option.map_none]

/-- The index made of entries holds those that count. -/
theorem entries_foldl_apply (es : List IndexEntry) :
    (es.foldl (fun idx e => e.apply idx) (∅ : Index)).entries.Perm
      ((standingEntries es).map IndexEntry.item) := by
  have hkeys : (((standingEntries es).map IndexEntry.item).map Sigma.fst).Nodup := by
    rw [List.map_map]
    exact standingEntries_nodup es
  refine (List.perm_ext_iff_of_nodup (AList.nodupKeys _).nodup (List.Nodup.of_map _ hkeys)).2
    fun ⟨k, v⟩ => ?_
  rw [← AList.mem_lookup_iff, lookup_foldl_apply_empty, Option.mem_def, Option.map_eq_some_iff,
    List.mem_map]
  refine ⟨fun ⟨e, he, hv⟩ => ?_, fun ⟨e, he, hit⟩ => ?_⟩
  · have hk : e.key = k := by simpa using List.find?_some he
    exact ⟨e, List.mem_of_find?_eq_some he, by rw [← hk, ← hv]; rfl⟩
  · obtain ⟨hk, hv⟩ := Sigma.mk.inj hit
    exact ⟨e, find?_standingEntries he hk, eq_of_heq hv⟩

/-! ## Rank -/

namespace Setup

/-- The TTL that counts for an entry: its own, in the 24 bits the index keeps of it, or the policy's. -/
def ttlOf (su : Setup) (e : IndexEntry) : UInt32 :=
  if 0 < e.ttl.toNat % 2 ^ 24 then UInt32.ofNat (e.ttl.toNat % 2 ^ 24) else su.ttlSecs

/-- What eviction compares entries by. -/
def rank (su : Setup) (e : IndexEntry) : Int :=
  (e.ts.toNat : Int) - (ttlPenalty e.priority (su.ttlOf e)).toNat

/-- The limit on the records leaves the entry: there is none, or fewer of the entries that count
outrank it than there may be. -/
def Lasts (su : Setup) (es : List IndexEntry) (e : IndexEntry) : Prop :=
  su.maxRecs = 0 ∨
    (standingEntries es).countP (fun e' => decide (su.rank e < su.rank e')) < su.maxRecs.toNat

instance (su : Setup) (es : List IndexEntry) (e : IndexEntry) : Decidable (su.Lasts es e) :=
  inferInstanceAs (Decidable (_ ∨ _))

/-- The entry an opening leaves for the key. -/
def keptEntry (su : Setup) (es : List IndexEntry) (k : Key) : Option IndexEntry :=
  ((standingEntries es).find? fun e => e.key = k).filter fun e => su.Lasts es e

/-- Eviction has no choice between entries of equal rank. -/
def Untied (su : Setup) (es : List IndexEntry) : Prop :=
  ∀ e ∈ standingEntries es, su.Lasts es e → su.maxRecs = 0 ∨
    (standingEntries es).countP (fun e' => decide (su.rank e ≤ su.rank e')) ≤ su.maxRecs.toNat

instance (su : Setup) (es : List IndexEntry) : Decidable (su.Untied es) :=
  inferInstanceAs (Decidable (∀ _ ∈ _, _))

/-- Nothing of the key is left by an opening: no entry counts for it, or more than enough others
outrank the one that does. -/
def Outlasted (su : Setup) (es : List IndexEntry) (k : Key) : Prop :=
  ∀ e ∈ standingEntries es, e.key = k → ¬su.Lasts es e

instance (su : Setup) (es : List IndexEntry) (k : Key) : Decidable (su.Outlasted es k) :=
  inferInstanceAs (Decidable (∀ _ ∈ _, _))

end Setup

/-! ## Eviction -/

/-- Eviction splits the entries: as many stay as there may be, and none of them is of less rank than
one that goes. -/
theorem prune_splits {st : Store} (h : ¬st.Capped) : ∃ evicted rest : List IndexItem,
    st.index.entries.Perm (evicted ++ rest) ∧ rest.length = st.policyMaxRecs.toNat ∧
      (∀ x ∈ evicted, ∀ y ∈ rest, st.score x ≤ st.score y) ∧
      st.pruneIndexToMaxRecs.2.index.entries.Perm rest := by
  obtain ⟨evicted, rest, hperm, hlen, hle, hindex⟩ := prune_evicts h
  refine ⟨evicted, rest, hperm, ?_, hle, hindex ▸ entries_foldl_erase hperm⟩
  have hsize := hperm.length_eq
  rw [← st.indexSize_eq, List.length_append] at hsize
  rw [Store.Capped, not_or, Nat.not_le] at h
  omega

/-- What eviction leaves is outranked by fewer entries than there may be. -/
theorem Store.outranking_lt {st : Store} (hmax : st.policyMaxRecs ≠ 0) {it : IndexItem}
    (hit : it ∈ st.pruneIndexToMaxRecs.2.index.entries) :
    st.index.entries.countP (fun x => decide (st.score it < st.score x))
      < st.policyMaxRecs.toNat := by
  have hself (l : List IndexItem) (hl : it ∈ l) :
      l.countP (fun x => decide (st.score it < st.score x)) < l.length := by
    rw [(List.perm_cons_erase hl).countP_eq, List.countP_cons_of_neg (by simp)]
    have hpos := List.length_pos_of_mem hl
    have hle := @List.countP_le_length _ (fun x => decide (st.score it < st.score x)) (l.erase it)
    rw [List.length_erase_of_mem hl] at hle
    omega
  by_cases hcap : st.Capped
  · rw [pruneIndexToMaxRecs_eq hcap] at hit
    have hle := hcap.resolve_left hmax
    rw [st.indexSize_eq] at hle
    exact Nat.lt_of_lt_of_le (hself _ hit) hle
  · obtain ⟨evicted, rest, hperm, hlen, hle, hrest⟩ := prune_splits hcap
    have hin := hrest.mem_iff.1 hit
    have hnone : evicted.countP (fun x => decide (st.score it < st.score x)) = 0 :=
      List.countP_eq_zero.2 fun x hx => by simpa using hle x hx it hin
    rw [hperm.countP_eq, List.countP_append, hnone, Nat.zero_add, ← hlen]
    exact hself _ hin

/-- What eviction drops is of no greater rank than all that it leaves. -/
theorem Store.lt_ranking {st : Store} {it : IndexItem} (hin : it ∈ st.index.entries)
    (hout : it ∉ st.pruneIndexToMaxRecs.2.index.entries) :
    st.policyMaxRecs.toNat < st.index.entries.countP (fun x => decide (st.score it ≤ st.score x)) := by
  have hcap : ¬st.Capped := fun hcap => hout (by rwa [pruneIndexToMaxRecs_eq hcap])
  obtain ⟨evicted, rest, hperm, hlen, hle, hrest⟩ := prune_splits hcap
  have hev : it ∈ evicted :=
    (List.mem_append.1 (hperm.mem_iff.1 hin)).resolve_right fun h => hout (hrest.mem_iff.2 h)
  have hall : rest.countP (fun x => decide (st.score it ≤ st.score x)) = rest.length :=
    List.countP_eq_length.2 fun x hx => by simpa using hle it hev x hx
  have hone : 0 < evicted.countP (fun x => decide (st.score it ≤ st.score x)) :=
    List.countP_pos_iff.2 ⟨it, hev, by simp⟩
  rw [hperm.countP_eq, List.countP_append, hall, hlen]
  omega

/-! ## What an opening leaves -/

/-- The index is the one these entries make, under the policies of the setup. -/
structure Store.Loads (su : Setup) (es : List IndexEntry) (st : Store) : Prop where
  /-- Nothing but the entries is in the index. -/
  index : st.index = es.foldl (fun idx e => e.apply idx) ∅
  /-- The TTL policy decides the rank of an entry without a TTL of its own. -/
  ttl : st.policyTtlSecs = su.ttlSecs
  /-- The limit decides how many entries last. -/
  maxRecs : st.policyMaxRecs = su.maxRecs

namespace Store.Loads

variable {su : Setup} {es : List IndexEntry} {st : Store}

theorem score (h : st.Loads su es) (e : IndexEntry) : st.score e.item = su.rank e := by
  have httl : st.effectiveTtl e.value = su.ttlOf e := by
    have h24 : e.value.ttl.toNat = e.ttl.toNat % 2 ^ 24 := UInt24.toNat_ofNat_mod _
    rw [Store.effectiveTtl, h24, Setup.ttlOf, h.ttl]
  change (e.ts.toNat : Int) - (ttlPenalty e.priority (st.effectiveTtl e.value)).toNat = _
  rw [httl]
  rfl

/-- Counting entries of the index is counting entries of the file. -/
theorem countP (h : st.Loads su es) (p : Int → Bool) :
    st.index.entries.countP (fun x => p (st.score x))
      = (standingEntries es).countP (fun e => p (su.rank e)) := by
  rw [h.index, (entries_foldl_apply es).countP_eq, List.countP_map]
  exact List.countP_congr fun e _ => by rw [Function.comp_apply, h.score]

theorem find (h : st.Loads su es) (k : Key) : st.indexFind k
    = ((standingEntries es).find? fun e => e.key = k).map IndexEntry.value := by
  rw [Store.indexFind, h.index]
  exact lookup_foldl_apply_empty es k

/-- Eviction keeps or drops an entry, but does not change it. -/
theorem find_prune (st : Store) {k : Key} {v : IndexValue}
    (hv : st.pruneIndexToMaxRecs.2.indexFind k = some v) : st.indexFind k = some v := by
  obtain ⟨n, idx, d, hprune, hw, -⟩ := prune_spec st
  rw [hprune] at hv
  exact hw k v hv

/-- What eviction leaves lasts. -/
theorem lasts (h : st.Loads su es) {e : IndexEntry} (he : e ∈ standingEntries es)
    (hkept : (st.pruneIndexToMaxRecs.2.indexFind e.key).isSome) : su.Lasts es e := by
  obtain ⟨v, hv⟩ := Option.isSome_iff_exists.1 hkept
  have hfind := find_prune st hv
  rw [h.find, find?_standingEntries he rfl, Option.map_some, Option.some.injEq] at hfind
  subst hfind
  by_cases hmax : su.maxRecs = 0
  · exact .inl hmax
  · have hlt := @Store.outranking_lt st (by rwa [h.maxRecs]) e.item (AList.mem_lookup_iff.1 hv)
    rw [h.score, h.countP fun i => decide (su.rank e < i), h.maxRecs] at hlt
    exact .inr hlt

/-- **An entry that does not last is evicted**, in whatever order the index is iterated. -/
theorem evicted (h : st.Loads su es) {k : Key} (hout : su.Outlasted es k) :
    st.pruneIndexToMaxRecs.2.indexFind k = none := by
  cases hv : st.pruneIndexToMaxRecs.2.indexFind k with
  | none => rfl
  | some v =>
    have hfind := find_prune st hv
    rw [h.find, Option.map_eq_some_iff] at hfind
    obtain ⟨e, he, -⟩ := hfind
    have hk : e.key = k := by simpa using List.find?_some he
    have hmem := List.mem_of_find?_eq_some he
    exact absurd (h.lasts hmem (by rw [hk, hv]; rfl)) (hout e hmem hk)

/-- **Without ties the entries that last stay**, and no others. -/
theorem kept (h : st.Loads su es) (huntied : su.Untied es) (k : Key) :
    st.pruneIndexToMaxRecs.2.indexFind k = (su.keptEntry es k).map IndexEntry.value := by
  rw [Setup.keptEntry]
  cases he : (standingEntries es).find? (fun e => e.key = k) with
  | none =>
    cases hv : st.pruneIndexToMaxRecs.2.indexFind k with
    | none => rfl
    | some v =>
      have hfind := find_prune st hv
      rw [h.find, he] at hfind
      cases hfind
  | some e =>
    obtain rfl : e.key = k := by simpa using List.find?_some he
    have hmem := List.mem_of_find?_eq_some he
    have hfind : st.indexFind e.key = some e.value := by rw [h.find, he, Option.map_some]
    rw [Option.filter_some]
    by_cases hlasts : su.Lasts es e
    · rw [if_pos (by simpa using hlasts), Option.map_some]
      refine AList.mem_lookup_iff.2 (Classical.byContradiction fun hout => ?_)
      have hin := AList.mem_lookup_iff.1 hfind
      have hcap : ¬st.Capped := fun hcap => hout (by rwa [pruneIndexToMaxRecs_eq hcap])
      have hlt := @Store.lt_ranking st e.item hin hout
      rw [h.score, h.countP fun i => decide (su.rank e ≤ i), h.maxRecs] at hlt
      rcases huntied e hmem hlasts with hmax | hle
      · exact hcap (.inl (h.maxRecs.trans hmax))
      · omega
    · rw [if_neg (by simpa using hlasts), Option.map_none]
      cases hv : st.pruneIndexToMaxRecs.2.indexFind e.key with
      | none => rfl
      | some v => exact absurd (h.lasts hmem (by rw [hv]; rfl)) hlasts

end Store.Loads

/-! ## The entries of a file -/

/-- The entries of an index file, up to the first that cannot be read. -/
def indexEntries (bs : Bytes) : List IndexEntry := loadedEntries bs.length bs

theorem loadedEntries_entriesBytes {es : List IndexEntry} {fuel : Nat} (h : es.length ≤ fuel) :
    loadedEntries fuel (entriesBytes es) = es := by
  induction es generalizing fuel with
  | nil =>
    cases fuel with
    | zero => rfl
    | succ fuel =>
      have hnil : readEntry (entriesBytes []) = none := readEntry_nil
      rw [loadedEntries, hnil]
  | cons e es ih =>
    obtain ⟨fuel, rfl⟩ := Nat.exists_eq_succ_of_ne_zero (Nat.ne_zero_of_lt h)
    rw [entriesBytes_cons, loadedEntries, readEntry_bytes]
    dsimp only
    rw [List.drop_left' e.length_bytes, ih (Nat.le_of_succ_le_succ h)]

/-- Writing entries and reading them gives them back. -/
theorem indexEntries_entriesBytes (es : List IndexEntry) : indexEntries (entriesBytes es) = es := by
  refine loadedEntries_entriesBytes ?_
  induction es with
  | nil => exact Nat.le_refl 0
  | cons e es ih =>
    rw [entriesBytes_cons, List.length_append, e.length_bytes, IndexEntry.size, List.length_cons]
    omega

section held

variable {su : Setup} {b : Bool} {m : Key → Option Record} {st : Store} {fs : FileSystem} {L : Log}

/-- The index file of a held store has the entries of its log. -/
theorem Held.entries_of_file (h : Held su b m st fs L) {bs : Bytes}
    (hbs : fs.file (storePath su.basePrefix .index) = some bs) : indexEntries bs = L.entries := by
  have hfile := h.rep.disk.index
  rw [h.pre, hbs, h.indexTail, List.append_nil, Option.some.injEq] at hfile
  rw [hfile, indexEntries_entriesBytes]

/-- **A restart leaves what lasts**: the index is the one the entries make, evicted down to the limit. -/
theorem Held.wp_restart_loads (h : Held su b m st fs L) (order : IterationOrder) :
    su.env.wp (su.perform st (.restart order)) (fun st' _ => ∃ st₀ : Store, st₀.Loads su L.entries ∧
      st'.index = st₀.pruneIndexToMaxRecs.2.index) fs := by
  rw [Setup.perform]
  refine Prog.wp_bind.2 (wp_closeStore h.fits.reads h.rep.buf ?_)
  refine su.wp_start order fun st' hpre hcount httl hmax hvalid hcool hbuf hindex _ => ?_
  have hE : su.env.Fits st'.basePrefix st'.count := by
    rw [hpre, Store.count, hcount]
    exact su.fits
  have hd : Disk st'.basePrefix st'.count fs L := by
    rw [hpre, ← h.pre, Store.count, hcount, ← h.segmentCount]
    exact h.rep.disk
  refine wp_initFiles hE hd (by rw [h.indexTail]; exact readEntry_nil) hvalid (.inr hcool) hbuf
    hindex (fun _ _ _ _ => trivial) fun st'' fs' L' hop => ⟨_, ?_, hop.index⟩
  exact ⟨rfl, httl, hmax⟩

end held

end MicroStore
