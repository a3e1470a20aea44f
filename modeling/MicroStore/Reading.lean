import MicroStore.Operating

/-!
# Reading and listing

The specifications of `get`, `exists`, `size` and iteration: on a store that represents a log they
answer from the map of the log and leave everything alone, but for entries that have expired.

## What is here

* `Store.visible` — the record a lookup finds: live, and its TTL not over.
* `Drops` — what a read may do to the index: entries that have expired are taken out, all others stay.
  The files do not change, so an expired entry comes back with the next `init`, and is taken out again
  by the next read.
* `wp_getValue`, `exists_eq`, `size_eq`, `wp_iterate` — the operations.
* `Rep.getValue_exec`, `Rep.exists_fst` — what the two lookups answer, for keys of any length.

That `get` finds the value is `Rep.fetch_eq`: the entry names a place, at that place is the record, and
the record is read back whole.
-/

set_option autoImplicit false

namespace MicroStore

section reading

variable {E : Env} {st : Store} {fs : FileSystem} {L : Log}

/-- The value a key has as long as it has not expired. -/
def Store.visible (st : Store) (L : Log) (now : UInt32) (k : Key) : Option Value :=
  ((L.live k).filter fun t => !st.expires now t.record).map fun t => t.record.value

/-- A lookup may have taken entries that have expired out of the index. -/
structure Drops (now : UInt32) (st : Store) (L : Log) (idx : Index) : Prop where
  /-- No entry is added. -/
  within : idx.Within st.index
  /-- An entry that has not expired stays. -/
  keeps : ∀ k t, L.live k = some t → st.expires now t.record = false → (idx.lookup k).isSome
  /-- If none has expired, the index is as before. -/
  all : (∀ k t, L.live k = some t → st.expires now t.record = false) → idx = st.index

namespace Drops

variable {now : UInt32} {idx : Index}

/-- Nothing is taken out. -/
theorem refl (hs : st.index.Shows L.live) : Drops now st L st.index where
  within _ _ h := h
  keeps k t ht _ := by
    rw [hs k, ht]
    rfl
  all _ := rfl

/-- An entry that has expired may go. -/
theorem erase (hs : st.index.Shows L.live) {k : Key} {t : Located} (ht : L.live k = some t)
    (hexp : st.expires now t.record = true) : Drops now st L (st.index.erase k) where
  within k' v h := by
    by_cases hk : k' = k
    · rw [hk, AList.lookup_erase] at h
      cases h
    · rwa [AList.lookup_erase_ne hk] at h
  keeps k' t' ht' hexp' := by
    have hk : k' ≠ k := by
      rintro rfl
      obtain rfl : t = t' := Option.some.inj (ht.symm.trans ht')
      cases hexp.symm.trans hexp'
    rw [AList.lookup_erase_ne hk, hs k', ht']
    rfl
  all h := by cases hexp.symm.trans (h k t ht)

/-- The store goes on representing a log, with fewer keys. -/
theorem ready (h : Drops now st L idx) (hr : Ready st fs L) :
    Ready { st with index := idx } fs (L.narrow (L.live.within idx)) where
  rep := hr.rep.narrow h.within
  active := by
    obtain ⟨g, hg⟩ := hr.active
    exact ⟨g, hg.narrow⟩
  indexTail := hr.indexTail

/-- As a step of the log. -/
theorem carries (h : Drops now st L idx) (hs : st.index.Shows L.live) :
    Carries st L { st with index := idx } (L.narrow (L.live.within idx)) := by
  refine .narrow ⟨rfl, rfl, rfl, rfl⟩ rfl Live.within_le fun httl _ ht => ?_
  rw [h.all fun k t hk => expires_eq_false httl (ht.record hk).2 now]
  exact hs.within_self

end Drops

/-- A record that stands where it says is what the store finds there. -/
theorem Disk.fetch_eq {pre : Path} {count : Nat} (hd : Disk pre count fs L) {t : Located}
    (hhas : L.Has t) (hoff : t.off < 2 ^ 24) {st : Store} (hpre : st.basePrefix = pre) :
    st.fetch fs t.indexValue = some t.record.value := by
  subst hpre
  obtain ⟨g, hg, rest, hrest⟩ := hhas
  obtain ⟨i, hi, hdata⟩ := hd.dir_segment hg
  have hseg : t.indexValue.segment.toNat = t.seg :=
    Nat.mod_eq_of_lt (Nat.lt_trans (hd.ok.segs_lt _ g hg) (spanOf_lt hd.lt))
  have hoff : t.indexValue.offset.toNat = t.off := UInt24.toNat_ofNat hoff
  rw [Store.fetch, hseg, hoff]
  change (fs.file (storePath st.basePrefix (.segment t.seg))).bind _ = _
  rw [FileSystem.file_eq_some hi, Option.bind_some, hdata, ← hrest, readValue_bytes]

/-- What the index says of a live key leads to its value. -/
theorem Rep.fetch_eq (hr : Rep st fs L) {k : Key} {t : Located} (ht : L.live k = some t) :
    st.fetch fs t.indexValue = some t.record.value := by
  have hsaved := hr.disk.ok.sub k t ht
  exact hr.disk.fetch_eq (hr.disk.ok.has k t hsaved) (hr.disk.ok.off k t hsaved) rfl

/-- **`get` answers from the map.** -/
theorem wp_getValue (hE : E.Reads fs) (hr : Rep st fs L) {clk : Clock} {key : Buf}
    (hkey : key.bytes.length ≤ maxKeyLen) {Q : Option Value × Store → FileSystem → Prop}
    (hQ : ∀ idx, Drops clk.time st L idx →
      Q (st.visible L clk.time key.bytes, { st with index := idx }) fs) :
    E.wp (st.getValue clk key) Q fs := by
  rw [Store.getValue, Store.get, if_neg (by rw [hr.valid]; decide), if_neg (Nat.not_lt.2 hkey),
    flushBuffer_nil hr.buf]
  refine Prog.wp_bind.2 (Env.wp_pure_bind ?_)
  dsimp only
  have hfind : st.indexFind key.bytes = (L.live key.bytes).map Located.indexValue := hr.shows _
  rw [hfind]
  rw [Store.visible] at hQ
  cases hl : L.live key.bytes with
  | none =>
    rw [hl] at hQ
    exact hQ st.index (.refl hr.shows)
  | some t =>
    rw [hl] at hQ
    dsimp only [Option.map_some]
    cases hexp : st.expires clk.time t.record with
    | true =>
      have hexp' : st.isTtlExpired clk.time t.indexValue.timestamp t.indexValue.ttl.toNat = true := hexp
      rw [hexp', if_pos rfl]
      have h := hQ _ (.erase hr.shows hl hexp)
      simp only [Option.filter_some, hexp, Bool.not_true, Bool.false_eq_true, if_false,
        Option.map_none] at h
      exact h
    | false =>
      have hexp' : st.isTtlExpired clk.time t.indexValue.timestamp t.indexValue.ttl.toNat = false := hexp
      rw [hexp', if_neg (by decide)]
      refine Prog.wp_bind.2 (wp_getAt hE ?_)
      rw [hr.fetch_eq hl]
      have h := hQ _ (.refl hr.shows)
      refine Env.wp_ret (Env.wp_ret ?_)
      simpa only [Option.filter_some, hexp, Bool.not_false, if_true, Option.map_some,
        List.take_length] using h

/-- `exists` agrees with `get`. -/
theorem exists_eq (hr : Rep st fs L) (clk : Clock) {key : Buf}
    (hkey : key.bytes.length ≤ maxKeyLen) : ∃ idx, Drops clk.time st L idx ∧
    st.exists clk key = ((st.visible L clk.time key.bytes).isSome, { st with index := idx }) := by
  rw [Store.exists, if_neg (by rw [hr.valid]; decide), if_neg (Nat.not_lt.2 hkey)]
  have hfind : st.indexFind key.bytes = (L.live key.bytes).map Located.indexValue := hr.shows _
  rw [hfind, Store.visible]
  cases hl : L.live key.bytes with
  | none => exact ⟨st.index, .refl hr.shows, rfl⟩
  | some t =>
    dsimp only [Option.map_some]
    cases hexp : st.expires clk.time t.record with
    | true =>
      have hexp' : st.isTtlExpired clk.time t.indexValue.timestamp t.indexValue.ttl.toNat = true := hexp
      rw [hexp', if_pos rfl]
      refine ⟨_, .erase hr.shows hl hexp, ?_⟩
      simp only [Option.filter_some, hexp, Bool.not_true, Bool.false_eq_true, if_false,
        Option.map_none, Option.isSome_none]
      rfl
    | false =>
      have hexp' : st.isTtlExpired clk.time t.indexValue.timestamp t.indexValue.ttl.toNat = false := hexp
      rw [hexp', if_neg (by decide)]
      refine ⟨_, .refl hr.shows, ?_⟩
      simp only [Option.filter_some, hexp, Bool.not_false, if_true, Option.map_some,
        Option.isSome_some]

/-- A key that is too long is not looked up. -/
theorem getValue_of_long (hvalid : st.valid = true) {clk : Clock} {key : Buf}
    (hkey : ¬key.bytes.length ≤ maxKeyLen) : st.getValue clk key = pure (none, st) := by
  rw [Store.getValue, Store.get, if_neg (by rw [hvalid]; decide), if_pos (Nat.not_le.1 hkey)]
  rfl

/-- Nor is it found to be there. -/
theorem exists_of_long (hvalid : st.valid = true) {clk : Clock} {key : Buf}
    (hkey : ¬key.bytes.length ≤ maxKeyLen) : st.exists clk key = (false, st) := by
  rw [Store.exists, if_neg (by rw [hvalid]; decide), if_pos (Nat.not_le.1 hkey)]

/-- No log has it. -/
theorem Rep.live_of_long (hr : Rep st fs L) {k : Key} (hk : ¬k.length ≤ maxKeyLen) :
    L.live k = none := by
  cases hl : L.live k with
  | none => rfl
  | some t =>
    have hle := t.record.key_le
    rw [hr.disk.ok.key k t (hr.disk.ok.sub k t hl)] at hle
    exact absurd hle hk

/-- So the map tells what `get` answers whatever the key, -/
theorem Rep.getValue_exec (hr : Rep st fs L) (clk : Clock) (key : Buf) :
    (Prog.exec posix (st.getValue clk key) fs).1.1 = st.visible L clk.time key.bytes := by
  by_cases hkey : key.bytes.length ≤ maxKeyLen
  · refine @Env.plain_exec _ _ (fun (x : Option Value × Store) _ => x.1 = _) fs ?_
    exact wp_getValue (Env.plain_reads fs) hr hkey fun _ _ => rfl
  · rw [getValue_of_long hr.valid hkey, Store.visible, hr.live_of_long hkey]
    rfl

/-- and what `exists` does. -/
theorem Rep.exists_fst (hr : Rep st fs L) (clk : Clock) (key : Buf) :
    (st.exists clk key).1 = (st.visible L clk.time key.bytes).isSome := by
  by_cases hkey : key.bytes.length ≤ maxKeyLen
  · obtain ⟨idx, -, hex⟩ := exists_eq hr clk hkey
    rw [hex]
  · rw [exists_of_long hr.valid hkey, Store.visible, hr.live_of_long hkey]
    rfl

/-- In a tidy log without a TTL every key is visible, and a lookup leaves the index alone. -/
theorem Log.Tidy.visible (ht : L.Tidy st.count st.currentSegment) (httl : st.policyTtlSecs = 0)
    (now : UInt32) (k : Key) : st.visible L now k = L.view k := by
  rw [Store.visible, Log.view]
  cases hl : L.live k with
  | none => rfl
  | some t =>
    rw [Option.filter_some, expires_eq_false httl (ht.record hl).2]
    rfl

/-- The keys of the index are those that have a value. -/
theorem Rep.mem_keys (hr : Rep st fs L) {k : Key} : k ∈ st.index.keys ↔ (L.view k).isSome := by
  rw [← AList.mem_keys, ← AList.lookup_isSome, hr.shows k, Log.view]
  cases L.live k <;> rfl

/-- `size` counts the keys that have a value. -/
theorem size_eq (hr : Rep st fs L) : ∃ ks : List Key, ks.Nodup ∧
    (∀ k, k ∈ ks ↔ (L.view k).isSome) ∧ st.size = ks.length := by
  refine ⟨st.index.keys, st.index.keys_nodup, fun k => hr.mem_keys, ?_⟩
  rw [Store.size, if_neg (by rw [hr.valid]; decide)]
  rfl

/-- **Iteration yields every key once, with its value.** -/
theorem wp_iterate (hE : E.Reads fs) (hr : Rep st fs L)
    {Q : List Entry × Store → FileSystem → Prop}
    (hQ : ∀ es : List Entry, (es.map Entry.key).Nodup →
      (∀ k, k ∈ es.map Entry.key ↔ (L.view k).isSome) →
      (∀ e ∈ es, L.view e.key = some e.value) → Q (es, st) fs) :
    E.wp st.iterate Q fs := by
  rw [Store.iterate, flushBuffer_nil hr.buf]
  refine Env.wp_pure_bind ?_
  dsimp only
  have hnodup : (st.items.map Sigma.fst).Nodup :=
    ((st.order.perm _).map _).nodup_iff.2 st.index.keys_nodup
  have hmem (k : Key) : k ∈ st.items.map Sigma.fst ↔ (L.view k).isSome :=
    ((st.order.perm _).map _).mem_iff.trans hr.mem_keys
  have loop (items : List IndexItem) (hit : ∀ it ∈ items, it ∈ st.items)
      {Q' : List Entry → FileSystem → Prop}
      (hQ' : ∀ es : List Entry, es.map Entry.key = items.map Sigma.fst →
        (∀ e ∈ es, L.view e.key = some e.value) → Q' es fs) :
      E.wp (st.iterateLoop items) Q' fs := by
    induction items generalizing Q' with
    | nil => exact Env.wp_ret (hQ' [] rfl nofun)
    | cons it items ih =>
      obtain ⟨t, ht, hv⟩ := (mem_items hr.shows).1 (hit it List.mem_cons_self)
      rw [Store.iterateLoop]
      obtain ⟨i, hi, hpre⟩ := hr.fetch ht
      rw [hv] at hi hpre
      refine Prog.wp_bind.2 (wp_loadValue hE hi hpre ?_)
      refine Prog.wp_bind.2 (ih (fun it' h => hit it' (List.mem_cons_of_mem _ h)) fun es hes hview => ?_)
      refine Env.wp_ret (hQ' _ (congrArg (it.1 :: ·) hes) fun e he => ?_)
      rcases List.mem_cons.1 he with rfl | he
      · rw [Log.view, ht]
        rfl
      · exact hview e he
  refine Prog.wp_bind.2 (loop st.items (fun _ h => h) fun es hes hview => ?_)
  refine Env.wp_ret (hQ es ?_ ?_ hview)
  · rw [hes]
    exact hnodup
  · intro k
    rw [hes]
    exact hmem k

end reading

end MicroStore
