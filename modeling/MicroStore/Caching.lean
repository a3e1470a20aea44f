import MicroStore.Library.Recency
import MicroStore.Evicting

/-!
# The keys put last

A `FileStore` with a limit ranks its records by their timestamps.  Where these grow from put to put and
nothing expires, it is a cache of the keys that were put last (`file_keeps_latest`): what it shows until
the files are opened anew is the list of the latest keys, cut off at the limit.

## What is here

* `Operation.latest` — the keys put last, the latest one first, as a function of the operations alone.
  It knows nothing of files, of the index or of eviction.
* `Store.Caches` — what a store shows is such a list: every way of asking it gives the same answer.
* `Latest` — the invariant behind it.  The live keys are the list, and their timestamps fall along it,
  so the key of least score is the last one.
* `Store.prune_latest` — eviction of one entry therefore drops the last key of the list.
* `Latest.put`, `Latest.remove` — the two operations that change the list; `Latest.perform` is any step.
* `file_keeps_latest` — the result.

## What is not here

A restart reads the index file, which still has the entries of evicted keys; what it brings back is
another matter (`Standing.lean`).  With TTLs the rank is no longer that of the timestamps, which is the
subject of `Ranking.lean`.
-/

set_option autoImplicit false

namespace MicroStore

/-! ## The latest keys

The list is kept up by each operation: a put moves its key to the front and cuts the list at the
limit, a remove takes its key out, a clear empties it. -/

namespace Operation

/-- The timestamp the operation puts. -/
def stamp : Operation → Option UInt32
  | .put _ _ _ _ ts _ => some ts
  | .get .. | .exists .. | .remove .. | .size | .iterate | .clear | .compact _ | .restart _ => none

/-- A put has a key and no TTL, and the files are not opened anew. -/
def Plain : Operation → Prop
  | .put _ key _ ttl _ _ => key.bytes ≠ [] ∧ ttl = 0
  | .restart _ => False
  | .get .. | .exists .. | .remove .. | .size | .iterate | .clear | .compact _ => True

instance : (op : Operation) → Decidable op.Plain
  | .put _ key _ ttl _ _ => inferInstanceAs (Decidable (key.bytes ≠ [] ∧ ttl = 0))
  | .restart _ => .isFalse id
  | .get .. | .exists .. | .remove .. | .size | .iterate | .clear | .compact _ => .isTrue trivial

/-- The latest keys after the operation, the last one first. -/
def latestNext (limit : Nat) (recent : List Key) : Operation → List Key
  | .put _ key data _ _ _ =>
    if key.bytes.length ≤ maxKeyLen ∧ data.bytes.length ≤ maxValueLen then
      Recency.touch limit key.bytes recent
    else recent
  | .remove _ key _ _ => if key.bytes.length ≤ maxKeyLen then recent.erase key.bytes else recent
  | .clear => []
  | .get .. | .exists .. | .size | .iterate | .compact _ | .restart _ => recent

/-- The latest keys after the operations. -/
def latest (limit : Nat) (ops : List Operation) : List Key := ops.foldl (latestNext limit) []

end Operation

/-- What a store shows that caches these keys. -/
structure Store.Caches (m : Key → Option Record) (recent : List Key) (s : Store × FileSystem) :
    Prop where
  /-- The index has the keys of the list. -/
  find : ∀ k, (s.1.indexFind k).isSome ↔ k ∈ recent
  /-- A lookup finds the values that were put last, for these keys. -/
  get : ∀ (clk : Clock) (key : Buf), (Prog.exec posix (s.1.getValue clk key) s.2).1.1
    = if key.bytes ∈ recent then (m key.bytes).map Record.value else none
  /-- `exists` answers for these keys. -/
  «exists» : ∀ (clk : Clock) (key : Buf), (s.1.exists clk key).1 = true ↔ key.bytes ∈ recent
  /-- They are counted. -/
  size : s.1.size = recent.length
  /-- They are yielded, each once. -/
  iterate : ((Prog.exec posix s.1.iterate s.2).1.1.map Entry.key).Perm recent
  /-- Each is yielded with the value that was put last. -/
  value : ∀ e ∈ (Prog.exec posix s.1.iterate s.2).1.1, (m e.key).map Record.value = some e.value

/-- The timestamp of the key's record. -/
def stampOf (m : Key → Option Record) (k : Key) : Nat := (m k).elim 0 fun r => r.hdr.timestamp.toNat

/-! ## Eviction by time

Without TTLs there is no penalty, so the score of an entry is its timestamp. -/

/-- Without a TTL an entry is ranked by its timestamp. -/
theorem Store.score_of_timeless {st : Store} {it : IndexItem} (hpol : st.policyTtlSecs = 0)
    (httl : it.2.ttl.toNat = 0) : st.score it = it.2.timestamp.toNat := by
  have hpen : (ttlPenalty it.2.priority 0).toNat = 0 := by
    rw [toNat_ttlPenalty]
    simp
  rw [score, effectiveTtl, httl, if_neg (Nat.lt_irrefl 0), hpol, hpen]
  simp

/-- Entries that are ranked by stamps: eviction leaves those that bear the greatest. -/
theorem Store.prune_latest {st : Store} {recent : List Key} {f : Key → Nat}
    (hscore : ∀ it ∈ st.index.entries, it.1 ∈ recent ∧ st.score it = f it.1)
    (hsorted : recent.Pairwise fun a b => f b < f a) {k : Key}
    (hk : k ∈ recent.take st.policyMaxRecs.toNat) (hin : (st.indexFind k).isSome) :
    (st.pruneIndexToMaxRecs.2.indexFind k).isSome := by
  by_cases hcap : st.Capped
  · rwa [hcap.prune]
  obtain ⟨evicted, rest, hperm, hlen, hle, hindex⟩ := prune_evicts hcap
  obtain ⟨v, hv⟩ := Option.isSome_iff_exists.1 hin
  have hmem : (⟨k, v⟩ : IndexItem) ∈ evicted ++ rest := hperm.mem_iff.1 (AList.mem_lookup_iff.1 hv)
  have hleft : st.pruneIndexToMaxRecs.2.index.entries.Perm rest := by
    rw [hindex]
    exact entries_foldl_erase hperm
  rcases List.mem_append.1 hmem with hevicted | hrest
  swap
  · have hl : st.pruneIndexToMaxRecs.2.index.lookup k = some v :=
      AList.mem_lookup_iff.2 (hleft.mem_iff.2 hrest)
    rw [Store.indexFind, hl]
    rfl
  -- all that would be left is later
  have hnodup : ((evicted ++ rest).map Sigma.fst).Nodup := (hperm.map _).nodup_iff.1 st.index.nodupKeys
  rw [List.map_append] at hnodup
  obtain ⟨-, hnodup, hdisj⟩ := List.nodup_append.1 hnodup
  have hlater := Recency.later_lt (G := (rest.map Sigma.fst).toFinset) hsorted hk fun y hy => by
    obtain ⟨it, hit, rfl⟩ := List.mem_map.1 (List.mem_toFinset.1 hy)
    have hne : k ≠ it.1 := hdisj k (List.mem_map_of_mem hevicted) it.1 (List.mem_map_of_mem hit)
    obtain ⟨hitin, hits⟩ := hscore it (hperm.mem_iff.2 (List.mem_append_right _ hit))
    obtain ⟨hkin, hks⟩ := hscore ⟨k, v⟩ (hperm.mem_iff.2 (List.mem_append_left _ hevicted))
    have hfle : f k ≤ f it.1 := by
      have h := hle _ hevicted _ hit
      rw [hks, hits] at h
      exact Int.ofNat_le.1 h
    have hfne : f k ≠ f it.1 := by
      have hpair : recent.Pairwise fun a b => f a ≠ f b := hsorted.imp fun h => (Nat.ne_of_lt h).symm
      have hsymm : Std.Symm fun a b => f a ≠ f b := ⟨fun _ _ => Ne.symm⟩
      exact hpair.forall hkin hitin hne
    exact ⟨hitin, lt_of_le_of_ne hfle hfne⟩
  rw [List.toFinset_card_of_nodup hnodup, List.length_map] at hlater
  have hsize : st.indexSize = evicted.length + rest.length := by
    rw [Store.indexSize_eq, hperm.length_eq, List.length_append]
  rw [Store.Capped, not_or, Nat.not_le] at hcap
  omega

section caching

variable {su : Setup} {b : Bool} {m : Key → Option Record} {st : Store} {fs : FileSystem} {L : Log}
  {recent : List Key}

/-- The store shows the latest keys, which are sorted by their timestamps. -/
structure Latest (su : Setup) (m : Key → Option Record) (L : Log) (recent : List Key) : Prop where
  /-- The live keys are those of the list. -/
  live : ∀ k, (L.live k).isSome ↔ k ∈ recent
  /-- No key is in the list twice. -/
  nodup : recent.Nodup
  /-- The list is in the order of the timestamps, the latest first. -/
  sorted : recent.Pairwise fun k k' => stampOf m k' < stampOf m k
  /-- The list is no longer than the limit. -/
  le : recent.length ≤ su.maxRecs.toNat
  /-- No put has an empty key or a TTL. -/
  plain : ∀ k r, m k = some r → k ≠ [] ∧ r.hdr.ttl = 0

/-- Nothing expires. -/
theorem Latest.expires (hl : Latest su m L recent) (h : Held su b m st fs L) (httl : su.ttlSecs = 0)
    {k : Key} {r : Record} (hr : m k = some r) (now : UInt32) : st.expires now r = false :=
  expires_eq_false (h.ttl.trans httl) (hl.plain k r hr).2 now

/-- A key of the list has a record in the log, the one that was put last. -/
theorem Latest.record (hl : Latest su m L recent) (h : Held su b m st fs L) {k : Key} (hk : k ∈ recent) :
    ∃ t, L.live k = some t ∧ m k = some t.record := by
  obtain ⟨t, ht⟩ := Option.isSome_iff_exists.1 ((hl.live k).2 hk)
  exact ⟨t, ht, h.records k t (h.rep.disk.ok.sub k t ht)⟩

/-- There is no empty key. -/
theorem Latest.nil (hl : Latest su m L recent) (h : Held su b m st fs L) : L.live [] = none := by
  cases hk : L.live [] with
  | none => rfl
  | some t => exact absurd rfl (hl.plain [] _ (h.records [] t (h.rep.disk.ok.sub [] t hk))).1

/-- A step that puts nothing and does not open the files anew shows what it showed before, but for the
keys it removes. -/
theorem Latest.shown (hl : Latest su m L recent) (h : Held su b m st fs L)
    (htwo : 2 ≤ su.segments.toNat) (httl : su.ttlSecs = 0) {op : Operation} (hputs : op.puts = none)
    (hopen : op.restarts = false) {b' : Bool} {st' : Store} {fs' : FileSystem} {L' : Log}
    (h' : Held su b' (op.next m) st' fs' L') (hf : op.Follows st fs L st' L')
    (hret : ∀ k, op.Retains st fs st' k)
    (hnext : ∀ k, (∀ m : Key → Option Record, op.next m k = m k) ∨ ∀ m, op.next m k = none) (k : Key) :
    (L'.live k).isSome ↔ k ∈ recent ∧ (op.next m k).isSome := by
  rw [← hl.live]
  constructor
  · intro hk
    obtain ⟨t, ht⟩ := Option.isSome_iff_exists.1 hk
    have hr := h'.records k t (h'.rep.disk.ok.sub k t ht)
    refine ⟨?_, by rw [hr]; rfl⟩
    rcases hf.live k hk with hput | hold | ⟨hopen', -⟩
    · rw [hputs] at hput
      cases hput
    · exact hold
    · rw [hopen] at hopen'
      cases hopen'
  · rintro ⟨hk, hsome⟩
    obtain ⟨t, ht⟩ := Option.isSome_iff_exists.1 hk
    have hsame := (hnext k).resolve_right fun hno => by
      rw [hno] at hsome
      cases hsome
    have hr := h.records k t (h.rep.disk.ok.sub k t ht)
    have hcount : 2 ≤ st.count := by
      rw [Store.count, h.segmentCount]
      exact htwo
    have hempty : op.puts ≠ some [] := hputs ▸ (Option.some_ne_none []).symm
    obtain ⟨t', ht', -⟩ := hf.keeps h.capped hcount (hl.nil h) hempty k t.record (by rw [hsame, ht]; rfl)
      (fun now _ => hl.expires h httl hr now) (hret k)
    rw [ht']
    rfl

/-- Before a put evicts, every entry is ranked by the stamp of its key. -/
theorem Held.score_inserted (h : Held su false m st fs L) (hl : Latest su m L recent)
    (httl : su.ttlSecs = 0) {st₁ : Store} {fs₁ : FileSystem} {L₁ : Log} (hr : Rep st₁ fs₁ L₁)
    (hc : Carries st L st₁ L₁) {key : Key} {seg off : Nat} {ts : UInt32} {priority : UInt8}
    {m' : Key → Option Record} (hself : stampOf m' key = ts.toNat)
    (hother : ∀ k, k ≠ key → m' k = m k) (it : IndexItem)
    (hit : it ∈ (st₁.indexInsert key seg off ts 0 priority).index.entries) :
    it.1 ∈ key :: recent.erase key ∧
      (st₁.indexInsert key seg off ts 0 priority).score it = stampOf m' it.1 := by
  have hpol : (st₁.indexInsert key seg off ts 0 priority).policyTtlSecs = 0 :=
    hc.ttl.trans (h.ttl.trans httl)
  have hlookup : (st₁.index.insert key (indexValue seg off ts 0 priority)).lookup it.1 = some it.2 :=
    AList.mem_lookup_iff.2 hit
  by_cases hk : it.1 = key
  · rw [hk, AList.lookup_insert, Option.some.injEq] at hlookup
    refine ⟨hk ▸ List.mem_cons_self, ?_⟩
    have hzero : it.2.ttl.toNat = 0 := by
      rw [← hlookup, indexValue]
      exact UInt24.toNat_ofNat (by decide)
    rw [hk, hself, Store.score_of_timeless hpol hzero, ← hlookup]
    rfl
  · rw [AList.lookup_insert_ne hk, hr.shows it.1, Option.map_eq_some_iff] at hlookup
    obtain ⟨t₁, ht₁, he⟩ := hlookup
    obtain ⟨t, ht, hrec⟩ := hc.live it.1 t₁ ht₁
    have hm := h.records it.1 t (h.rep.disk.ok.sub it.1 t ht)
    rw [hrec] at hm
    have htime : t₁.record.hdr.ttl = 0 := (hl.plain it.1 _ hm).2
    have hmem : it.1 ∈ recent := (hl.live it.1).1 (by rw [ht]; rfl)
    refine ⟨(Recency.mem_cons_erase hl.nodup).2 (.inr hmem), ?_⟩
    have hzero : it.2.ttl.toNat = 0 := by
      rw [← he, Located.indexValue, htime, indexValue]
      exact UInt24.toNat_ofNat (by decide)
    rw [Store.score_of_timeless hpol hzero, stampOf, hother it.1 hk, hm, ← he]
    rfl

/-- With a later stamp than all, a key goes to the front of the list. -/
theorem Latest.sorted_touched (hl : Latest su m L recent) (h : Held su b m st fs L) {key : Key}
    {ts : UInt32} {m' : Key → Option Record} (hself : stampOf m' key = ts.toNat)
    (hother : ∀ k, k ≠ key → m' k = m k) (hlater : ∀ k r, m k = some r → r.hdr.timestamp < ts) :
    (key :: recent.erase key).Pairwise fun k k' => stampOf m' k' < stampOf m' k := by
  have hold : ∀ k ∈ recent.erase key, k ≠ key ∧ k ∈ recent := fun k hk =>
    (hl.nodup.mem_erase_iff).1 hk
  refine List.pairwise_cons.2 ⟨fun k hk => ?_, ?_⟩
  · obtain ⟨hkne, hkin⟩ := hold k hk
    obtain ⟨t, -, hm⟩ := hl.record h hkin
    rw [hself, stampOf, hother k hkne, hm]
    exact UInt32.lt_iff_toNat_lt.1 (hlater k _ hm)
  · refine (hl.sorted.sublist List.erase_sublist).imp_of_mem fun {k k'} hk hk' hlt => ?_
    rw [stampOf, stampOf, hother k (hold k hk).1, hother k' (hold k' hk').1]
    exact hlt

/-- A put evicts none of the first keys of that list. -/
theorem Latest.retains_put (hl : Latest su m L recent) (h : Held su false m st fs L)
    (httl : su.ttlSecs = 0) {clk : Clock} {key data : Buf} {ts : UInt32} {priority : UInt8}
    (hlater : ∀ k r, m k = some r → r.hdr.timestamp < ts)
    (hlim : key.bytes.length ≤ maxKeyLen ∧ data.bytes.length ≤ maxValueLen)
    (hsmall : ∀ x ∈ Prog.trace posix (st.put clk key data 0 ts priority) fs, su.Small x.2)
    {m' : Key → Option Record} (hself : stampOf m' key.bytes = ts.toNat)
    (hother : ∀ k, k ≠ key.bytes → m' k = m k) (st' : Store) {k : Key}
    (hk : k ∈ Recency.touch su.maxRecs.toNat key.bytes recent) :
    (Operation.put clk key data 0 ts priority).Retains st fs st' k := by
  have hrotate : ∀ x ∈ Prog.trace posix (st.rotateSegmentIfNeeded clk data.bytes.length) fs,
      su.Small x.2 := by
    intro x hx
    refine hsmall x ?_
    rw [Store.put, if_neg (by rw [h.rep.valid]; decide), if_neg (Nat.not_lt.2 hlim.1),
      if_neg (Nat.not_lt.2 hlim.2), Prog.trace_bind]
    exact List.mem_append_left _ hx
  obtain ⟨L₁, hr₁, hc, -⟩ := Env.exec_of_wp (wp_rotate_ready h.fits (h.ready rfl)) hrotate
  intro hin
  refine Store.prune_latest (h.score_inserted hl httl hr₁.rep hc hself hother)
    (hl.sorted_touched h hself hother hlater) ?_ hin
  have hrecs : (Prog.exec posix (st.rotateSegmentIfNeeded clk data.bytes.length)
      fs).1.2.policyMaxRecs = su.maxRecs := hc.maxRecs.trans h.maxRecs
  rw [Store.indexInsert, hrecs]
  exact hk

/-- **A put** moves its key to the front, and the key behind the limit is evicted. -/
theorem Latest.put (hl : Latest su m L recent) (h : Held su false m st fs L)
    (htwo : 2 ≤ su.segments.toNat) (httl : su.ttlSecs = 0) (hmax : su.maxRecs ≠ 0) {clk : Clock}
    {key data : Buf} {ts : UInt32} {priority : UInt8} (hne : key.bytes ≠ [])
    (hlater : ∀ k r, m k = some r → r.hdr.timestamp < ts)
    (hlim : key.bytes.length ≤ maxKeyLen ∧ data.bytes.length ≤ maxValueLen)
    (hsmall : ∀ x ∈ Prog.trace posix (st.put clk key data 0 ts priority) fs, su.Small x.2)
    {st' : Store} {fs' : FileSystem} {L' : Log}
    (h' : Held su false ((Operation.put clk key data 0 ts priority).next m) st' fs' L')
    (hf : (Operation.put clk key data 0 ts priority).Follows st fs L st' L') :
    Latest su ((Operation.put clk key data 0 ts priority).next m) L'
      (Recency.touch su.maxRecs.toNat key.bytes recent) := by
  obtain ⟨r, hrec⟩ : ∃ r, putRecord key data 0 ts priority hlim.1 hlim.2 = r := ⟨_, rfl⟩
  have hrts : r.hdr.timestamp = ts := by rw [← hrec]; rfl
  have hrttl : r.hdr.ttl = 0 := by rw [← hrec]; rfl
  have hnext (m : Key → Option Record) : (Operation.put clk key data 0 ts priority).next m
      = Function.update m key.bytes (some r) := by
    rw [Operation.next, dif_pos hlim, hrec]
  have hself : stampOf ((Operation.put clk key data 0 ts priority).next m) key.bytes = ts.toNat := by
    rw [hnext, stampOf, Function.update_self, Option.elim_some, hrts]
  have hother (k : Key) (hk : k ≠ key.bytes) :
      (Operation.put clk key data 0 ts priority).next m k = m k := by
    rw [hnext, Function.update_of_ne hk]
  have hplain (k : Key) (r' : Record)
      (hr' : (Operation.put clk key data 0 ts priority).next m k = some r') :
      k ≠ [] ∧ r'.hdr.ttl = 0 := by
    by_cases hk : k = key.bytes
    · rw [hnext, hk, Function.update_self, Option.some.injEq] at hr'
      exact ⟨hk.symm ▸ hne, hr' ▸ hrttl⟩
    · rw [hother k hk] at hr'
      exact hl.plain k r' hr'
  have hsorted := hl.sorted_touched h hself hother hlater
  -- none of the keys in front is lost: their records do not expire, and the put does not evict them
  have hkeep (k : Key) (hk : k ∈ Recency.touch su.maxRecs.toNat key.bytes recent) :
      (L'.live k).isSome := by
    have hcount : 2 ≤ st.count := by
      rw [Store.count, h.segmentCount]
      exact htwo
    obtain ⟨r', hr', hexp⟩ : ∃ r', (Operation.put clk key data 0 ts priority).next
        (fun k => (L.live k).map Located.record) k = some r' ∧ ∀ now, st.expires now r' = false := by
      by_cases hkey : k = key.bytes
      · refine ⟨r, by rw [hnext, hkey, Function.update_self], fun now => ?_⟩
        exact expires_eq_false (h.ttl.trans httl) hrttl now
      · have hin := ((Recency.mem_cons_erase hl.nodup).1 (List.mem_of_mem_take hk)).resolve_left hkey
        obtain ⟨t, ht, hm⟩ := hl.record h hin
        refine ⟨t.record, by rw [hnext, Function.update_of_ne hkey, ht]; rfl, fun now => ?_⟩
        exact hl.expires h httl hm now
    obtain ⟨t, ht, -⟩ := hf.keeps h.capped hcount (hl.nil h) (fun he => hne (Option.some.inj he)) k r' hr'
      (fun now _ => hexp now) (hl.retains_put h httl hlater hlim hsmall hself hother st' hk)
    rw [ht]
    rfl
  have hshow (k : Key) : k ∈ st'.index.keys.toFinset ↔ (L'.live k).isSome := by
    rw [List.mem_toFinset, ← AList.mem_keys, ← AList.lookup_isSome, h'.rep.shows k, Option.isSome_map]
  refine ⟨fun k => ?_, Recency.nodup_touch hl.nodup, hsorted.sublist (List.take_sublist ..),
    Recency.length_touch_le, hplain⟩
  rw [← hshow]
  refine Recency.mem_iff_mem_take (Recency.nodup_cons_erase hl.nodup) (fun y hy => ?_)
    (fun y hy => (hshow y).2 (hkeep y hy)) ?_
  · rw [Recency.mem_cons_erase hl.nodup]
    rcases hf.live y ((hshow y).1 hy) with hput | hold | ⟨hopen, -⟩
    · exact .inl (Option.some.inj hput).symm
    · exact .inr ((hl.live y).1 hold)
    · cases hopen
  · rw [List.toFinset_card_of_nodup st'.index.keys_nodup]
    have hcap := h'.capped.resolve_left (by rw [h'.maxRecs]; exact hmax)
    rwa [h'.maxRecs] at hcap

/-- **A removal** takes its key out. -/
theorem Latest.remove (hl : Latest su m L recent) (h : Held su b m st fs L)
    (htwo : 2 ≤ su.segments.toNat) (httl : su.ttlSecs = 0) {clk : Clock} {key : Buf} {junkTtl : UInt32}
    {junkPriority : UInt8} (hlim : key.bytes.length ≤ maxKeyLen) {b' : Bool} {st' : Store}
    {fs' : FileSystem} {L' : Log}
    (h' : Held su b' ((Operation.remove clk key junkTtl junkPriority).next m) st' fs' L')
    (hf : (Operation.remove clk key junkTtl junkPriority).Follows st fs L st' L') :
    Latest su ((Operation.remove clk key junkTtl junkPriority).next m) L' (recent.erase key.bytes) := by
  have hnext (m : Key → Option Record) : (Operation.remove clk key junkTtl junkPriority).next m
      = Function.update m key.bytes none := if_pos hlim
  have hshown := hl.shown h htwo httl rfl rfl h' hf (fun _ => trivial) fun k => by
    simp only [hnext]
    by_cases hk : k = key.bytes
    · exact .inr fun m => by rw [hk, Function.update_self]
    · exact .inl fun m => Function.update_of_ne hk ..
  rw [hnext] at hshown ⊢
  refine ⟨fun k => ?_, hl.nodup.erase _, ?_, (List.length_erase_le).trans hl.le, ?_⟩
  · rw [hshown, hl.nodup.mem_erase_iff]
    by_cases hk : k = key.bytes
    · rw [hk, Function.update_self]
      exact iff_of_false (fun h => Bool.false_ne_true h.2) fun h => h.1 rfl
    · rw [Function.update_of_ne hk]
      refine ⟨fun hx => ⟨hk, hx.1⟩, fun hx => ⟨hx.2, ?_⟩⟩
      obtain ⟨t, -, hm⟩ := hl.record h hx.2
      rw [hm]
      rfl
  · refine (hl.sorted.sublist List.erase_sublist).imp_of_mem fun {k k'} hk hk' hlt => ?_
    rw [stampOf, stampOf, Function.update_of_ne (hl.nodup.mem_erase_iff.1 hk).1,
      Function.update_of_ne (hl.nodup.mem_erase_iff.1 hk').1]
    exact hlt
  · intro k r hr
    by_cases hk : k = key.bytes
    · rw [hk, Function.update_self] at hr
      cases hr
    · rw [Function.update_of_ne hk] at hr
      exact hl.plain k r hr

/-- **One step** of a run whose puts bear later and later timestamps. -/
theorem Latest.perform (hl : Latest su m L recent) (h : Held su b m st fs L)
    (htwo : 2 ≤ su.segments.toNat) (httl : su.ttlSecs = 0) (hmax : su.maxRecs ≠ 0) {op : Operation}
    (hb : op.appends = true → b = false) (hplain : op.Plain)
    (hlater : ∀ ts ∈ op.stamp, ∀ k r, m k = some r → r.hdr.timestamp < ts)
    (hsmall : ∀ x ∈ Prog.trace posix (su.perform st op) fs, su.Small x.2) {L' : Log}
    (h' : Held su (op.detaches b) (op.next m) (Prog.exec posix (su.perform st op) fs).1
      (Prog.exec posix (su.perform st op) fs).2 L')
    (hf : op.Follows st fs L (Prog.exec posix (su.perform st op) fs).1 L') :
    Latest su (op.next m) L' (op.latestNext su.maxRecs.toNat recent) := by
  have hrecord (k : Key) (hk : k ∈ recent) : (m k).isSome := by
    obtain ⟨t, -, hm⟩ := hl.record h hk
    rw [hm]
    rfl
  -- a step that neither puts nor removes
  have hsame (hputs : op.puts = none) (hopen : op.restarts = false)
      (hnext : ∀ m, op.next m = m) (hret : ∀ k, op.Retains st fs
        (Prog.exec posix (su.perform st op) fs).1 k) : Latest su (op.next m) L' recent := by
    have hshown := hl.shown h htwo httl hputs hopen h' hf hret fun k =>
      .inl fun m => congrFun (hnext m) k
    rw [hnext] at hshown ⊢
    exact ⟨fun k => (hshown k).trans (and_iff_left_of_imp (hrecord k)), hl.nodup, hl.sorted, hl.le,
      hl.plain⟩
  cases op with
  | put clk key data ttl ts priority =>
    obtain rfl : b = false := hb rfl
    obtain ⟨hne, rfl⟩ := hplain
    rw [Operation.latestNext]
    split
    case isTrue hlim =>
      refine hl.put h htwo httl hmax hne (hlater ts rfl) hlim (fun x hx => hsmall x ?_) h' hf
      rw [Setup.perform, Prog.trace_bind]
      exact List.mem_append_left _ hx
    case isFalse hlim =>
      have hnext : (Operation.put clk key data 0 ts priority).next m = m := dif_neg hlim
      have hsame : (Prog.exec posix (su.perform st (.put clk key data 0 ts priority)) fs).1 = st := by
        rw [Setup.perform, h.rep.put_beyond hlim]
        rfl
      have hshows := h'.rep.shows
      rw [hsame] at hshows
      rw [hnext]
      refine ⟨fun k => ?_, hl.nodup, hl.sorted, hl.le, hl.plain⟩
      rw [← hl.live k, ← Option.isSome_map (f := Located.indexValue), ← hshows k, h.rep.shows k,
        Option.isSome_map]
  | remove clk key junkTtl junkPriority =>
    by_cases hlim : key.bytes.length ≤ maxKeyLen
    · rw [Operation.latestNext, if_pos hlim]
      exact hl.remove h htwo httl hlim h' hf
    · rw [Operation.latestNext, if_neg hlim]
      exact hsame rfl rfl (fun _ => if_neg hlim) fun _ => trivial
  | clear =>
    refine ⟨fun k => iff_of_false (fun hk => ?_) List.not_mem_nil, .nil, .nil, Nat.zero_le _,
      fun _ _ hr => by cases hr⟩
    rw [h'.live_none rfl] at hk
    cases hk
  | get | «exists» | size | iterate | compact => exact hsame rfl rfl (fun _ => rfl) fun _ => trivial
  | restart => exact hplain.elim

/-- A record is an old one or bears the stamp of the operation. -/
theorem Operation.stamp_next {op : Operation} {k : Key} {r : Record} (hr : op.next m k = some r) :
    m k = some r ∨ op.stamp = some r.hdr.timestamp := by
  cases op with
  | put clk key data ttl ts priority =>
    rw [Operation.next] at hr
    split at hr
    case isTrue hlim =>
      by_cases hk : k = key.bytes
      · rw [hk, Function.update_self, Option.some.injEq] at hr
        rw [← hr]
        exact .inr rfl
      · rw [Function.update_of_ne hk] at hr
        exact .inl hr
    case isFalse => exact .inl hr
  | remove clk key =>
    rw [Operation.next] at hr
    split at hr
    · by_cases hk : k = key.bytes
      · rw [hk, Function.update_self] at hr
        cases hr
      · rw [Function.update_of_ne hk] at hr
        exact .inl hr
    · exact .inl hr
  | clear => cases hr
  | get | «exists» | size | iterate | compact | restart => exact .inl hr

/-- **A run** whose puts bear later and later timestamps. -/
theorem Latest.run {ops : List Operation} (hl : Latest su m L recent) (h : Held su b m st fs L)
    (htwo : 2 ≤ su.segments.toNat) (httl : su.ttlSecs = 0) (hmax : su.maxRecs ≠ 0)
    (hsmall : su.SmallRun ops (st, fs)) (hord : Operation.Orderly b ops)
    (hplain : ∀ op ∈ ops, op.Plain) (hrise : (ops.filterMap Operation.stamp).Pairwise (· < ·))
    (hlater : ∀ ts ∈ ops.filterMap Operation.stamp, ∀ k r, m k = some r → r.hdr.timestamp < ts) :
    ∃ L', Held su (ops.foldl Operation.detaches b) (ops.foldl Operation.next m)
        (su.run ops (st, fs)).1 (su.run ops (st, fs)).2 L' ∧
      Latest su (ops.foldl Operation.next m) L'
        (ops.foldl (Operation.latestNext su.maxRecs.toNat) recent) := by
  induction ops generalizing b m st fs L recent with
  | nil => exact ⟨L, h, hl⟩
  | cons op ops ih =>
    obtain ⟨L₁, h₁, hf⟩ := Env.exec_of_wp (h.wp_perform hord.1) hsmall.1
    have hstamp (ts : UInt32) (hts : ts ∈ op.stamp) :
        ts ∈ (op :: ops).filterMap Operation.stamp :=
      List.mem_filterMap.2 ⟨op, List.mem_cons_self, hts⟩
    have hl₁ := hl.perform h htwo httl hmax hord.1 (hplain op List.mem_cons_self)
      (fun ts hts => hlater ts (hstamp ts hts)) hsmall.1 h₁ hf
    have hrest (ts : UInt32) (hts : ts ∈ ops.filterMap Operation.stamp) :
        ts ∈ (op :: ops).filterMap Operation.stamp := by
      obtain ⟨op', hop, he⟩ := List.mem_filterMap.1 hts
      exact List.mem_filterMap.2 ⟨op', List.mem_cons_of_mem _ hop, he⟩
    refine ih hl₁ h₁ hsmall.2 hord.2 (fun op' h' => hplain op' (List.mem_cons_of_mem _ h'))
      (hrise.sublist ((List.sublist_cons_self ..).filterMap _)) fun ts hts k r hr => ?_
    rcases Operation.stamp_next hr with hold | hnew
    · exact hlater ts (hrest ts hts) k r hold
    · rw [List.filterMap_cons_some hnew] at hrise
      exact (List.pairwise_cons.1 hrise).1 ts hts

/-- What a store shows that caches the latest keys. -/
theorem Latest.caches (hl : Latest su m L recent) (h : Held su b m st fs L) (httl : su.ttlSecs = 0) :
    Store.Caches m recent (st, fs) := by
  have hvisible (now : UInt32) (k : Key) : st.visible L now k
      = if k ∈ recent then (m k).map Record.value else none := by
    rw [Store.visible]
    cases hk : L.live k with
    | none => rw [if_neg fun hin => by simpa [hk] using (hl.live k).2 hin]; rfl
    | some t =>
      have hm := h.records k t (h.rep.disk.ok.sub k t hk)
      rw [if_pos ((hl.live k).1 (by rw [hk]; rfl)), Option.filter_some, hl.expires h httl hm, hm]
      rfl
  have hisSome {now : UInt32} {k : Key} : (st.visible L now k).isSome = true ↔ k ∈ recent := by
    rw [← hl.live, Store.visible]
    cases hk : L.live k with
    | none => rfl
    | some t =>
      rw [Option.filter_some, hl.expires h httl (h.records k t (h.rep.disk.ok.sub k t hk))]
      rfl
  have hkeys (k : Key) : k ∈ st.index.keys ↔ k ∈ recent := by
    rw [← hl.live, ← AList.mem_keys, ← AList.lookup_isSome, h.rep.shows k, Option.isSome_map]
  have hview (k : Key) : (L.view k).isSome ↔ k ∈ recent := h.rep.mem_keys.symm.trans (hkeys k)
  have hiterate := @Env.plain_exec _ st.iterate (fun (x : List Entry × Store) _ =>
      (x.1.map Entry.key).Perm recent ∧ ∀ e ∈ x.1, (m e.key).map Record.value = some e.value) fs <| by
    refine wp_iterate (Env.plain_reads fs) h.rep fun es hnodup hmem hval => ⟨?_, fun e he => ?_⟩
    · exact (List.perm_ext_iff_of_nodup hnodup hl.nodup).2 fun k => (hmem k).trans (hview k)
    · have hv := hval e he
      rw [Log.view, Option.map_eq_some_iff] at hv
      obtain ⟨t, ht, hval⟩ := hv
      rw [h.records _ t (h.rep.disk.ok.sub _ t ht), ← hval]
      rfl
  refine ⟨fun k => ?_, fun clk key => ?_, fun clk key => ?_, ?_, hiterate.1, hiterate.2⟩
  · rw [← hkeys, ← AList.mem_keys, ← AList.lookup_isSome]
    rfl
  · rw [h.rep.getValue_exec]
    exact hvisible ..
  · rw [h.rep.exists_fst]
    exact hisSome
  · rw [Store.size, if_neg (by rw [h.rep.valid]; decide)]
    have hperm : st.index.keys.Perm recent :=
      (List.perm_ext_iff_of_nodup st.index.keys_nodup hl.nodup).2 hkeys
    exact hperm.length_eq

end caching

/-- **A limited store is a cache of the keys put last**, in every run in which no segment file reaches
`2 ^ 24` bytes, nothing is put or removed between a manual compaction and the next `clear`, nothing
has a TTL and each put bears a later timestamp than those before. -/
theorem file_keeps_latest (su : Setup) (order : IterationOrder) (fs : FileSystem)
    (hstart : su.Starts order fs) (htwo : 2 ≤ su.segments.toNat) (httl : su.ttlSecs = 0)
    (hmax : su.maxRecs ≠ 0) (ops : List Operation)
    (hsmall : su.SmallRun ops (Prog.exec posix (su.start order) fs))
    (hord : Operation.Orderly false ops) (hplain : ∀ op ∈ ops, op.Plain)
    (hrise : (ops.filterMap Operation.stamp).Pairwise (· < ·)) :
    Store.Caches (Operation.records ops) (Operation.latest su.maxRecs.toNat ops)
      (su.reach order fs ops) := by
  obtain ⟨L₀, h₀, -⟩ := hstart.held
  have hl₀ : Latest su (fun _ => none) L₀ [] := by
    refine ⟨fun k => iff_of_false (fun hk => ?_) List.not_mem_nil, .nil, .nil, Nat.zero_le _,
      fun _ _ hr => by cases hr⟩
    rw [h₀.live_none rfl] at hk
    cases hk
  obtain ⟨L, h, hl⟩ := hl₀.run h₀ htwo httl hmax hsmall hord hplain hrise
    fun _ _ _ _ hr => by cases hr
  exact hl.caches h httl

/-- Of nine keys the last eight are cached. -/
theorem file_keeps_latest_nine :
    Store.Caches (Operation.records evictingPuts) (Operation.latest 8 evictingPuts)
      (cappedSetup.reach .recent .empty evictingPuts) :=
  file_keeps_latest cappedSetup .recent .empty cappedSetup_starts (by decide) rfl (by decide)
    evictingPuts (by decide +kernel) (by decide) (by decide) (by decide)

end MicroStore
