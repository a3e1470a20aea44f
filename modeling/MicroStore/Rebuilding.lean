import MicroStore.Rebooting

/-!
# Power losses without the index file

When the index file is lost, too, `init` scans what the interrupted compaction has left of the segments:
which keys it finds.

## What is here

* `Log.behind`, `Log.without`, `Log.merged` — what an interrupted compaction leaves of a log: the
  segments from some number on, and in their front nothing or a segment made of copies.
* `replay_without`, `replay_merged` — what a scan of that leads to.  Copies come first, and each is what
  a scan of the removed segments led to, so nothing that follows is overtaken.
* `wp_recover_rename` — recovery where the journal says that copying was under way: `compact.tmp`
  becomes segment 0.
* `Rebuilt` — a store that answers from a map, whether or not it is that of a session.
* `Config.Rebuilds` — a start leads to such a store.
* `Config.Kept` — the condition on a key: the record its index entry led to can still be reached.
* `compaction_crash_rebuild` — both directions: a key is found with its value if its record can be
  reached, and is not found otherwise.

The cut may be at any call of the compaction, and the copies may be torn.
-/

set_option autoImplicit false

namespace MicroStore

/-! ## Replaying what is left

Two general facts on replays carry the section: records of other keys leave a key alone, and a record
of the key makes a replay forget what was before. -/

/-- Records of other keys leave a key alone. -/
theorem replay_of_absent {l : List Located} {k : Key} (h : ∀ t ∈ l, t.record.key ≠ k) (m : Live) :
    replay l m k = m k := by
  induction l generalizing m with
  | nil => rfl
  | cons t l ih =>
    rw [replay_cons, ih fun t' ht' => h t' (List.mem_cons_of_mem _ ht')]
    exact Live.apply_ne (h t List.mem_cons_self).symm

/-- A record of the key makes the replay forget what was before. -/
theorem replay_of_present {l : List Located} {k : Key} (h : ∃ t ∈ l, t.record.key = k) (m m' : Live) :
    replay l m k = replay l m' k := by
  induction l generalizing m m' with
  | nil =>
    obtain ⟨t, ht, -⟩ := h
    cases ht
  | cons t l ih =>
    rw [replay_cons, replay_cons]
    by_cases hl : ∃ t ∈ l, t.record.key = k
    · exact ih hl _ _
    · have habsent : ∀ t ∈ l, t.record.key ≠ k := fun t ht hk => hl ⟨t, ht, hk⟩
      obtain ⟨t', ht', hk⟩ := h
      obtain rfl | ht' := List.mem_cons.1 ht'
      · rw [replay_of_absent habsent, replay_of_absent habsent, ← hk, Live.apply_self, Live.apply_self]
      · exact absurd ⟨t', ht', hk⟩ hl

namespace Log

variable {L L' : Log} {r n : Nat}

/-- The places of all records of the segments from `r` to `n - 1`. -/
def behind (L : Log) (r : Nat) : Nat → List Located
  | 0 => []
  | n + 1 => if r ≤ n then L.behind r n ++ L.segLocated n else []

/-- The segments below some number and those from it on. -/
theorem located_split (h : r ≤ n) : L.located n = L.located r ++ L.behind r n := by
  induction n with
  | zero =>
    obtain rfl : r = 0 := Nat.le_zero.1 h
    rfl
  | succ n ih =>
    rw [behind]
    split
    · next hr => rw [located, ih hr, List.append_assoc]
    · obtain rfl : r = n + 1 := by omega
      rw [List.append_nil]

/-- It depends on these segments alone. -/
theorem behind_congr (h : ∀ s, r ≤ s → s < n → L.segLocated s = L'.segLocated s) :
    L.behind r n = L'.behind r n := by
  induction n with
  | zero => rfl
  | succ n ih =>
    rw [behind, behind]
    split
    · next hr => rw [ih fun s h1 h2 => h s h1 (Nat.lt_succ_of_lt h2), h n hr (Nat.lt_succ_self n)]
    · rfl

/-- The records behind. -/
theorem mem_behind {t : Located} : t ∈ L.behind r n ↔
    (r ≤ t.seg ∧ t.seg < n) ∧ t ∈ L.segLocated t.seg := by
  induction n with
  | zero => simp [behind]
  | succ n ih =>
    rw [behind]
    split
    · next hr =>
      rw [List.mem_append, ih]
      constructor
      · rintro (⟨⟨h1, h2⟩, h3⟩ | h)
        · exact ⟨⟨h1, by omega⟩, h3⟩
        · obtain rfl := seg_of_mem_segLocated h
          exact ⟨⟨hr, Nat.lt_succ_self _⟩, h⟩
      · rintro ⟨⟨h1, h2⟩, h3⟩
        rcases Nat.lt_succ_iff_lt_or_eq.1 h2 with h2 | h2
        · exact .inl ⟨⟨h1, h2⟩, h3⟩
        · exact .inr (h2 ▸ h3)
    · constructor
      · intro h
        cases h
      · rintro ⟨⟨h1, h2⟩, -⟩
        omega

/-- What a replay without the segments below `r` still finds. -/
theorem replay_behind (h : r ≤ n) (k : Key) : replay (L.behind r n) (fun _ => none) k
    = (replay (L.located n) (fun _ => none) k).filter fun t => r ≤ t.seg := by
  rw [located_split h, replay_append]
  by_cases hk : ∃ t ∈ L.behind r n, t.record.key = k
  · rw [replay_of_present hk (replay (L.located r) fun _ => none) fun _ => none]
    cases ht : replay (L.behind r n) (fun _ => none) k with
    | none => rfl
    | some t =>
      obtain ⟨hmem, -⟩ := (replay_eq_some ht).resolve_left (by simp)
      rw [Option.filter_some, if_pos (decide_eq_true (mem_behind.1 hmem).1.1)]
  · have habsent : ∀ t ∈ L.behind r n, t.record.key ≠ k := fun t ht he => hk ⟨t, ht, he⟩
    rw [replay_of_absent habsent, replay_of_absent habsent]
    cases ht : replay (L.located r) (fun _ => none) k with
    | none => rfl
    | some t =>
      obtain ⟨hmem, -⟩ := (replay_eq_some ht).resolve_left (by simp)
      have hlt := (mem_located.1 hmem).1
      rw [Option.filter_some, if_neg (by simpa using hlt)]

/-- The segments below `r` are gone. -/
def without (L : Log) (r : Nat) : Log := { L with segs := fun s => if s < r then none else L.segs s }

/-- The segments below `r` are gone, and there is another segment 0. -/
def merged (L : Log) (g : Segment) (r : Nat) : Log :=
  { L with segs := fun s => if s = 0 then some g else if s < r then none else L.segs s }

/-- The records of a segment depend on it alone. -/
theorem segLocated_congr {s : Nat} (h : L.segs s = L'.segs s) : L.segLocated s = L'.segLocated s := by
  rw [segLocated, segLocated, h]

/-- A segment that is not there has none. -/
theorem segLocated_none {s : Nat} (h : L.segs s = none) : L.segLocated s = [] := by
  rw [segLocated, h]

/-- One that is there has its records. -/
theorem segLocated_some {s : Nat} {g : Segment} (h : L.segs s = some g) :
    L.segLocated s = locate s 0 g.records := by
  rw [segLocated, h]

theorem segs_without_lt {s : Nat} (h : s < r) : (L.without r).segs s = none := if_pos h

theorem segs_without_ge {s : Nat} (h : r ≤ s) : (L.without r).segs s = L.segs s :=
  if_neg (Nat.not_lt.2 h)

theorem segs_merged_zero {g : Segment} : (L.merged g r).segs 0 = some g := rfl

theorem segs_merged_lt {g : Segment} {s : Nat} (h0 : 0 < s) (h : s < r) :
    (L.merged g r).segs s = none :=
  (if_neg (Nat.ne_of_gt h0)).trans (if_pos h)

theorem segs_merged_ge {g : Segment} {s : Nat} (h0 : 0 < s) (h : r ≤ s) :
    (L.merged g r).segs s = L.segs s :=
  (if_neg (Nat.ne_of_gt h0)).trans (if_neg (Nat.not_lt.2 h))

/-- What is left without the front. -/
theorem located_without (h : r ≤ n) : (L.without r).located n = L.behind r n := by
  have hnil : (L.without r).located r = [] := by
    refine List.eq_nil_iff_forall_not_mem.2 fun t ht => ?_
    obtain ⟨hlt, hmem⟩ := mem_located.1 ht
    rw [segLocated_none (segs_without_lt hlt)] at hmem
    cases hmem
  rw [located_split h, hnil, List.nil_append]
  exact behind_congr fun s hs _ => segLocated_congr (segs_without_ge hs)

/-- Without the segments below `r`, the keys with a record in one of these are lost, and no others. -/
theorem replay_without (h : r ≤ n) (hlive : L.live = replay (L.located n) fun _ => none) (k : Key) :
    replay ((L.without r).located n) (fun _ => none) k = (L.live k).filter fun t => r ≤ t.seg := by
  rw [located_without h, replay_behind h, hlive]

/-- What stands in front of the segments that are still there. -/
theorem mem_located_merged {g : Segment} {t : Located} (ht : t ∈ (L.merged g r).located (max 1 r)) :
    t ∈ locate 0 0 g.records := by
  obtain ⟨hlt, hmem⟩ := mem_located.1 ht
  by_cases h0 : t.seg = 0
  · rw [h0] at hmem
    exact hmem
  · rw [segLocated_none (segs_merged_lt (Nat.pos_of_ne_zero h0) (by omega))] at hmem
    cases hmem

/-- **With copies of the live records of the missing segments in front, nothing is lost.** -/
theorem replay_merged {g : Segment} (hpos : 0 < n) (hr : r ≤ n)
    (hlive : L.live = replay (L.located n) fun _ => none)
    (hkey : ∀ k t, L.live k = some t → t.record.key = k ∧ ¬t.record.deletes)
    (hcopy : ∀ x ∈ g.records, ∃ k t, L.live k = some t ∧ t.record = x)
    (hall : ∀ k t, L.live k = some t → t.seg < max 1 r → t.record ∈ g.records) (k : Key) :
    (replay ((L.merged g r).located n) (fun _ => none) k).map Located.record
      = (L.live k).map Located.record := by
  have hmax : max 1 r ≤ n := by omega
  have hsplit : (L.merged g r).located n
      = (L.merged g r).located (max 1 r) ++ L.behind (max 1 r) n := by
    rw [located_split hmax]
    refine congrArg _ (behind_congr fun s hs _ => segLocated_congr (segs_merged_ge ?_ ?_)) <;> omega
  rw [hsplit, replay_append]
  by_cases hk : ∃ t ∈ L.behind (max 1 r) n, t.record.key = k
  · rw [replay_of_present hk _ (replay (L.located (max 1 r)) fun _ => none), ← replay_append,
      ← located_split hmax, ← hlive]
  have habsent : ∀ t ∈ L.behind (max 1 r) n, t.record.key ≠ k := fun t ht he => hk ⟨t, ht, he⟩
  rw [replay_of_absent habsent]
  -- the copies are live records
  have hcopied {t : Located} (ht : t ∈ (L.merged g r).located (max 1 r)) :
      ∃ t', L.live t.record.key = some t' ∧ t'.record = t.record := by
    obtain ⟨k', t', hl, he⟩ := hcopy _ (record_mem_of_mem_locate (mem_located_merged ht))
    refine ⟨t', ?_, he⟩
    rw [← he, (hkey k' t' hl).1]
    exact hl
  cases ht : L.live k with
  | none =>
    cases hrep : replay ((L.merged g r).located (max 1 r)) (fun _ => none) k with
    | none => rfl
    | some t =>
      obtain ⟨hmem, hkk, -⟩ := (replay_eq_some hrep).resolve_left (by simp)
      obtain ⟨t', hl, -⟩ := hcopied hmem
      rw [hkk, ht] at hl
      cases hl
  | some t =>
    have hseg : t.seg < max 1 r := by
      rw [hlive, located_split hmax, replay_append, replay_of_absent habsent] at ht
      obtain ⟨hmem, -⟩ := (replay_eq_some ht).resolve_left (by simp)
      exact (mem_located.1 hmem).1
    obtain ⟨u, hu, hur⟩ := @exists_mem_locate 0 0 _ _ (hall k t ht hseg)
    have hmem : u ∈ (L.merged g r).located (max 1 r) := by
      have hu0 := (mem_locate hu).1
      refine mem_located.2 ⟨by rw [hu0]; omega, ?_⟩
      rw [hu0, segLocated_some segs_merged_zero]
      exact hu
    have hsome := replay_isSome (l := (L.merged g r).located (max 1 r)) (m := fun _ => none) (k := k)
      (fun v hv => by
        obtain ⟨t', hl, he⟩ := hcopied hv
        rw [← he]
        exact (hkey _ t' hl).2) (.inr ⟨u, hmem, by rw [hur]; exact (hkey k t ht).1⟩)
    obtain ⟨v, hv⟩ := Option.isSome_iff_exists.1 hsome
    obtain ⟨hvmem, hvk, -⟩ := (replay_eq_some hv).resolve_left (by simp)
    obtain ⟨t', hl, he⟩ := hcopied hvmem
    rw [hvk, ht] at hl
    obtain rfl := Option.some.inj hl
    rw [hv, Option.map_some, Option.map_some, he]

end Log

/-- A beginning of some records' bytes is some of the records, and behind them no frame. -/
theorem prefix_recordsBytes {rs : List Record} {x : Bytes} (h : x <+: recordsBytes rs) :
    ∃ ys tail, x = recordsBytes ys ++ tail ∧ ys <+: rs ∧ scanFrame tail = none := by
  induction rs generalizing x with
  | nil =>
    obtain rfl : x = [] := List.prefix_nil.1 h
    exact ⟨[], [], rfl, List.prefix_refl _, scanFrame_nil⟩
  | cons r rs ih =>
    rw [recordsBytes_cons] at h
    by_cases hlt : x.length < r.size
    · refine ⟨[], x, rfl, List.nil_prefix, scanFrame_torn ?_ hlt⟩
      refine List.prefix_of_prefix_length_le h (List.prefix_append _ _) ?_
      rw [r.length_bytes]
      exact Nat.le_of_lt hlt
    · have hr : r.bytes <+: x := by
        refine List.prefix_of_prefix_length_le (List.prefix_append _ _) h ?_
        rw [r.length_bytes]
        exact Nat.not_lt.1 hlt
      obtain ⟨y, rfl⟩ := hr
      obtain ⟨ys, tail, rfl, hys, htail⟩ := ih ((List.prefix_append_right_inj _).1 h)
      exact ⟨r :: ys, tail, by rw [recordsBytes_cons, List.append_assoc],
        (List.prefix_cons_inj r).2 hys, htail⟩

/-! ## Recovery that renames

Any remaining segment 0 is replaced.  The journal says that copying has begun, so all records of
segment 0 have been copied. -/

/-- Recovery that puts `compact.tmp` in the place of the first segment. -/
theorem wp_recover_rename {E : Env} {st : Store} {fs : FileSystem} (hn : NamesOk st.basePrefix)
    (hok : ∀ c fs, ¬c.logs → E.inv c fs) (hmild : ∀ c fs, E.allowed fs c → Scratch st.basePrefix fs c)
    {j : Journal} {bs : Bytes} (hj : fs.file st.journalName = some j.encode)
    (hmagic : j.magic = journalMagic) (hstate : j.state.toNat ≠ JournalState.commit.code)
    (hnext : j.nextSeg ≠ 0) (htmp : fs.file st.tmpName = some bs) {Q : Store → FileSystem → Prop}
    (hQ : ∀ fs', Frame (Names st.basePrefix fun a => a.scratch ∨ a = .segment 0) fs fs' →
      fs'.dir st.journalName = none → fs'.file (st.segmentName 0) = some bs → Q st fs') :
    E.wp st.recoverIfNeeded Q fs := by
  have hE := Env.reads_of (fun c => hok c fs) hmild
  obtain ⟨i, hi, hdata⟩ := Option.map_eq_some_iff.1 hj
  obtain ⟨l, hl, hbs⟩ := Option.map_eq_some_iff.1 htmp
  have hrest : Handle.rest ⟨i, 0, .read⟩ fs = j.encode := hdata
  have hvalid : ¬((j.encode.take Journal.size).length ≠ Journal.size ∨ j.magic ≠ journalMagic) := by
    rw [List.take_of_length_le (Nat.le_of_eq j.length_encode)]
    rintro (h | h)
    · exact h j.length_encode
    · exact h hmagic
  have h0 : StoreFile.Valid (.segment 0) := by
    change 0 < 256
    decide
  have hne : st.tmpName ≠ st.segmentName 0 := hn.ne (a := .tmp) trivial h0 (by simp)
  rw [Store.recoverIfNeeded]
  refine wp_openRead hE (fun h => ?_) fun i' hi' _ => ?_
  · cases hi.symm.trans h
  obtain rfl : i = i' := Option.some.inj (hi.symm.trans hi')
  refine wp_read hE rfl fun f' _ _ => wp_close hE ?_
  rw [hrest, decode_take_encode]
  dsimp only
  rw [if_neg hvalid, if_neg hstate, if_neg hnext]
  refine wp_rename (a := .tmp) trivial h0 hne hl ⟨hok _ _ id, hmild _ _⟩ fun fs1 hf1 _ hseg hdata1 => ?_
  rw [if_neg (by decide)]
  refine wp_remove (a := .journal) trivial ⟨hok _ _ id, hmild _ _⟩ fun fs2 _ hf2 hnone =>
    Env.wp_ret (hQ fs2 ?_ hnone ?_)
  · refine (hf1.mono fun p hp => hp.mono (fun a ha => ?_) p).trans
      (hf2.mono fun p hp => hp.mono (fun a ha => ?_) p)
    · rcases ha with rfl | rfl
      · exact .inl trivial
      · exact .inr rfl
    · subst ha
      exact .inl trivial
  · rw [hf2.file (hn.not_mem (.segment 0) h0 (by simp)), FileSystem.file_eq_some hseg, hdata1, hbs]

/-! ## What a scan makes of the files

The index is rebuilt and written anew, so the store represents a log again. -/

/-- The store answers from a map, and nothing in it expires. -/
structure Rebuilt (st : Store) (fs : FileSystem) (m : Key → Option Value) (L : Log) : Prop where
  /-- The store represents a log. -/
  rep : Rep st fs L
  /-- The policy has no TTL. -/
  ttl : st.policyTtlSecs = 0
  /-- Nor has a record. -/
  timeless : ∀ k t, L.live k = some t → t.record.hdr.ttl = 0
  /-- The log has this map. -/
  view : ∀ k, L.view k = m k

section rebuilt

variable {cfg : Config} {m : Contents} {st : Store} {fs fs' : FileSystem} {L : Log} {now : UInt32}

/-- `get` answers from the map. -/
theorem Rebuilt.getValue {m : Key → Option Value} (h : Rebuilt st fs m L) (clk : Clock) (key : Buf) :
    (Prog.exec posix (st.getValue clk key) fs).1.1 = m key.bytes := by
  rw [h.rep.getValue_exec, ← h.view, Log.view, Store.visible]
  cases ht : L.live key.bytes with
  | none => rfl
  | some t =>
    rw [Option.filter_some, expires_eq_false h.ttl (h.timeless _ t ht)]
    rfl

/-- The store of a session. -/
theorem Holds.rebuilt (h : Holds cfg m st fs L) : Rebuilt st fs m.lookup L :=
  ⟨h.ready.rep, h.ttl, fun _ _ ht => (h.tidy.record ht).2, h.view⟩

/-- A store that has been opened answers from what its index showed. -/
theorem Opened.rebuilt {st' : Store} {L' : Log} (hop : Opened st L st' fs' L')
    (hshows : st.index.Shows L.live) (httl : st.policyTtlSecs = 0) (hmax : st.policyMaxRecs = 0)
    (h0 : ∀ k t, L.live k = some t → t.record.hdr.ttl = 0) : Rebuilt st' fs' L.view L' where
  rep := hop.rep
  ttl := hop.config.ttl.trans httl
  timeless k t ht := h0 k t (hop.live k t ht)
  view k := by
    have hkeeps := hop.keeps k
    rw [pruneIndexToMaxRecs_eq (.inl hmax)] at hkeeps
    have hlive : L'.live k = L.live k := by
      cases ht : L.live k with
      | none =>
        cases ht' : L'.live k with
        | none => rfl
        | some t => cases ht.symm.trans (hop.live k t ht')
      | some t =>
        refine hkeeps t ht ?_
        rw [Store.indexFind, hshows k, ht]
        rfl
    rw [Log.view, hlive]
    rfl

/-- Without an index file, `init` answers from what a replay of the segments finds. -/
theorem wp_initIndex_rebuilt {E : Env} (hE : E.Fits st.basePrefix st.count)
    (hf : Files st.basePrefix st.count fs L) (hsc : L.Scannable st.count)
    (hnone : fs.dir st.indexName = none) (hinv : ∀ c fs, E.inv c fs) (hvalid : st.valid = true)
    (hcool : st.compactInCooldown = false) (hbuf : st.writeBuf = []) (httl : st.policyTtlSecs = 0)
    (hmax : st.policyMaxRecs = 0) {f : Key → Option Record}
    (hrep : ∀ k, (replay (L.located st.count) (fun _ => none) k).map Located.record = f k)
    (hf0 : ∀ k r, f k = some r → r.hdr.ttl = 0) :
    E.wp st.initIndex (fun x fs' => ∃ L', Rebuilt x.2 fs' (fun k => (f k).map Record.value) L') fs := by
  refine wp_initIndex_rebuilds hE hf hsc hnone (fun _ _ _ _ => hinv _ _) hvalid (.inr hcool) hbuf
    fun idx es st' fs' L' _ hshows hop => ?_
  have hview : (L.rebuilt st.count es).view = fun k => (f k).map Record.value := by
    funext k
    rw [← hrep k, Option.map_map]
    rfl
  rw [← hview]
  refine ⟨L', hop.rebuilt (by exact hshows) (by exact httl) (by exact hmax) fun k t ht => ?_⟩
  refine hf0 k t.record ?_
  rw [← hrep k]
  exact congrArg _ ht

end rebuilt

/-! ## The files an interrupted compaction leaves

With and without the rename, in terms of the log before. -/

section files

variable {cfg : Config} {m : Contents} {st : Store} {fs fs' : FileSystem} {L : Log} {now : UInt32}
  {n r : Nat}

/-- Losing the index file changes no other. -/
theorem Files.unlink_index {pre : Path} {count : Nat} (hf : Files pre count fs L) :
    Files pre count (fs.unlink (storePath pre .index)) L := by
  have hfr : Frame (Names pre (· = .index)) fs (fs.unlink (storePath pre .index)) :=
    Frame.unlink (mem_names trivial rfl)
  refine { hf with segs := fun s hs => ?_, journal := ?_ }
  · rw [hfr.file (hf.names.not_mem (.segment s) (Nat.lt_trans hs (spanOf_lt hf.lt)) (by simp))]
    exact hf.segs s hs
  · exact hf.journal.frame hf.names hfr (by simp) (by simp)

/-- Recovery leaves what is left. -/
theorem Checkpoint.files_without (hcp : Checkpoint st L now fs n r fs')
    (hd : Disk st.basePrefix st.count fs L) (htwo : 2 ≤ st.count) (hset : Settled st.basePrefix fs') :
    Files st.basePrefix st.count fs' (L.without r) where
  names := hd.names
  lt := hd.lt
  segs_lt s g hg := by
    by_cases hs : s < r
    · rw [Log.segs_without_lt hs] at hg
      cases hg
    · rw [Log.segs_without_ge (Nat.not_lt.1 hs)] at hg
      exact hd.ok.segs_lt s g hg
  segs s hs := by
    by_cases hsr : s < r
    · rw [Log.segs_without_lt hsr, FileSystem.file_eq_none.2 (hcp.gone s hsr)]
      rfl
    · rw [Log.segs_without_ge (Nat.not_lt.1 hsr)]
      exact hcp.segment hd (spanOf_eq htwo ▸ hs) (Nat.not_lt.1 hsr)
  journal := hset

/-- With `compact.tmp` in the place of the first segment. -/
theorem Checkpoint.files_merged (hcp : Checkpoint st L now fs n r fs')
    (hd : Disk st.basePrefix st.count fs L) (htwo : 2 ≤ st.count) {fs'' : FileSystem} {g : Segment}
    (hf : Frame (Names st.basePrefix fun a => a.scratch ∨ a = .index ∨ a = .segment 0) fs' fs'')
    (hset : Settled st.basePrefix fs'') (hfile : fs''.file (st.segmentName 0) = some g.bytes) :
    Files st.basePrefix st.count fs'' (L.merged g r) where
  names := hd.names
  lt := hd.lt
  segs_lt s g' hg := by
    by_cases h0 : s = 0
    · rw [h0]
      exact Nat.lt_of_lt_of_le Nat.zero_lt_two (two_le_spanOf _)
    · have hpos := Nat.pos_of_ne_zero h0
      by_cases hs : s < r
      · rw [Log.segs_merged_lt hpos hs] at hg
        cases hg
      · rw [Log.segs_merged_ge hpos (Nat.not_lt.1 hs)] at hg
        exact hd.ok.segs_lt s g' hg
  segs s hs := by
    by_cases h0 : s = 0
    · rw [h0, Log.segs_merged_zero]
      exact hfile
    have hpos := Nat.pos_of_ne_zero h0
    rw [hf.file (hd.names.not_mem (.segment s) (Nat.lt_trans hs (spanOf_lt hd.lt)) ?_)]
    · by_cases hsr : s < r
      · rw [Log.segs_merged_lt hpos hsr, FileSystem.file_eq_none.2 (hcp.gone s hsr)]
        rfl
      · rw [Log.segs_merged_ge hpos (Nat.not_lt.1 hsr)]
        exact hcp.segment hd (spanOf_eq htwo ▸ hs) (Nat.not_lt.1 hsr)
    · rintro (h | h | h)
      · exact h
      · cases h
      · cases h
        exact h0 rfl
  journal := hset

/-- What a replay finds without the segments below `r`. -/
theorem Holds.replay_without (h : Holds cfg m st fs L) (hr : r ≤ st.count) (k : Key) :
    (replay ((L.without r).located st.count) (fun _ => none) k).map Located.record
      = ((L.live k).filter fun t => r ≤ t.seg).map Located.record := by
  rw [Log.replay_without hr h.tidy.replay]

/-- It can be scanned. -/
theorem Log.Tidy.scannable_without {count cur : Nat} (h : L.Tidy count cur) :
    (L.without r).Scannable count where
  tail s _ g hg := by
    by_cases hs : s < r
    · rw [Log.segs_without_lt hs] at hg
      cases hg
    · rw [Log.segs_without_ge (Nat.not_lt.1 hs)] at hg
      rw [h.tail s g hg]
      exact scanFrame_nil
  key s _ g hg := by
    by_cases hs : s < r
    · rw [Log.segs_without_lt hs] at hg
      cases hg
    · rw [Log.segs_without_ge (Nat.not_lt.1 hs)] at hg
      exact h.key s g hg

/-- So can the log with the copies in front. -/
theorem Log.Tidy.scannable_merged {count cur : Nat} {g : Segment} (h : L.Tidy count cur)
    (htail : scanFrame g.tail = none) (hkey : ∀ x ∈ g.records, x.key ≠ []) :
    (L.merged g r).Scannable count where
  tail s hs g' hg := by
    by_cases h0 : s = 0
    · subst h0
      obtain rfl := Option.some.inj hg
      exact htail
    · refine (h.scannable_without : (L.without r).Scannable count).tail s hs g' ?_
      rw [← hg]
      exact (if_neg h0).symm
  key s hs g' hg := by
    by_cases h0 : s = 0
    · subst h0
      obtain rfl := Option.some.inj hg
      exact hkey
    · refine (h.scannable_without : (L.without r).Scannable count).key s hs g' ?_
      rw [← hg]
      exact (if_neg h0).symm

/-- The copies of the segments below `n`, and some of those of segment `n`: live records, and all that
are live below `n`. -/
theorem Holds.copies_live (h : Holds cfg m st fs L) {ys : List Record}
    (hys : ys <+: st.copies L now n) {x : Record} (hx : x ∈ st.image L now n ++ ys) :
    ∃ k t, L.live k = some t ∧ t.record = x := by
  rcases List.mem_append.1 hx with hx | hx
  · obtain ⟨k, t, ht, he⟩ := (mem_image h.ready.rep.disk h.ready.rep.shows).1 hx
    exact ⟨k, t, (survivors_eq_some.1 ht).1, he⟩
  · obtain ⟨k, t, ht, -, -, he⟩ := (mem_copies h.ready.rep.disk h.ready.rep.shows).1 (hys.subset hx)
    exact ⟨k, t, ht, he⟩

/-- **What a replay finds with `compact.tmp` in the place of the first segment**: all that was live. -/
theorem Holds.replay_merged (h : Holds cfg m st fs L) {ys : List Record} {tail : Bytes}
    (hys : ys <+: st.copies L now n) (hle : r ≤ n) (hpos : 0 < n) (hn : n ≤ st.count) (k : Key) :
    (replay ((L.merged ⟨st.image L now n ++ ys, tail⟩ r).located st.count) (fun _ => none) k).map
      Located.record = (L.live k).map Located.record := by
  have hok := h.ready.rep.disk.ok
  refine Log.replay_merged (Nat.lt_of_lt_of_le hpos hn) (Nat.le_trans hle hn) h.tidy.replay
    (fun k t ht => ⟨hok.key k t (hok.sub k t ht), hok.put k t (hok.sub k t ht)⟩)
    (fun x hx => h.copies_live hys hx) (fun k t ht hseg => ?_) k
  exact List.mem_append_left _ (h.mem_image_of_live ht (by omega))

end files

/-! ## Starts without the index file

The cases are those of the journal: a commit with or without its `compact.tmp`, a compaction under
way, or nothing to recover. -/

/-- A start answers from this map. -/
def Config.Rebuilds (cfg : Config) (fs : FileSystem) (m : Key → Option Value) : Prop :=
  ∀ order, cfg.env.wp (cfg.start order) (fun st fs' => ∃ L, Rebuilt st fs' m L) fs

/-- A lookup answers from the map. -/
theorem Config.Rebuilds.getAfter {cfg : Config} {fs : FileSystem} {m : Key → Option Value}
    (h : cfg.Rebuilds fs m) {order : IterationOrder}
    (hsmall : ∀ x ∈ Prog.trace posix (cfg.start order) fs, cfg.Small x.2) (clk : Clock) (key : Buf) :
    cfg.getAfter order fs clk key = m key.bytes := by
  obtain ⟨L, hL⟩ := Env.exec_of_wp (h order) hsmall
  exact hL.getValue clk key

section starts

variable {cfg : Config} {m : Contents} {st : Store} {fs fs' : FileSystem} {L : Log} {now : UInt32}
  {n r : Nat}

/-- Recovery has nothing to do: the segments are scanned. -/
theorem Files.rebuilds (hf : Files cfg.pre cfg.segmentCount.toNat fs L) (hcfg : cfg.Ok)
    (hsc : L.Scannable cfg.segmentCount.toNat) (hnone : fs.dir (storePath cfg.pre .index) = none)
    {f : Key → Option Record}
    (hrep : ∀ k, (replay (L.located cfg.segmentCount.toNat) (fun _ => none) k).map Located.record = f k)
    (hf0 : ∀ k r, f k = some r → r.hdr.ttl = 0) :
    cfg.Rebuilds fs fun k => (f k).map Record.value := by
  refine fun order => wp_start hcfg order fun st hpre hsc' hvalid hcool httl hmax hbuf _ => ?_
  have hE : cfg.env.Fits st.basePrefix st.count := Config.fits_store hcfg hpre hsc'
  have hcount : cfg.segmentCount.toNat = st.count := by rw [Store.count, hsc']
  rw [← hpre, hcount] at hf
  rw [← hpre] at hnone
  rw [hcount] at hsc hrep
  rw [Store.initFiles, if_neg Bool.false_ne_true]
  refine Env.wp_pure_bind ?_
  refine Prog.wp_bind.2 (wp_recoverIfNeeded hE hf.lt (.inl hf.journal) fun fs1 hf1 _ _ hset1 => ?_)
  specialize hf1 hf.journal
  have hnone1 := (hf1.dir (hf.names.not_mem .index trivial id)).trans hnone
  exact wp_initIndex_rebuilt hE (hf.frame hf1 hset1) hsc hnone1 (fun _ _ => trivial) hvalid hcool hbuf
    httl hmax hrep hf0

/-- Recovery removes the segments: nothing is found. -/
theorem Config.Dangling.rebuilds (h : cfg.Dangling fs) (hcfg : cfg.Ok)
    (hnone : fs.dir (storePath cfg.pre .index) = none) : cfg.Rebuilds fs fun _ => none := by
  refine fun order => wp_start hcfg order fun st hpre hsc' hvalid hcool httl hmax hbuf _ => ?_
  have hE : cfg.env.Fits st.basePrefix st.count := Config.fits_store hcfg hpre hsc'
  have hn : NamesOk st.basePrefix := hpre ▸ namesOk_of_length_le hcfg.pre
  have hlt : st.count < 256 := st.segmentCount.toNat_lt
  have htwo : 2 ≤ st.count := Config.two_le_count hcfg hsc'
  obtain ⟨hj, htmp⟩ := h
  rw [← hpre] at hj htmp hnone
  rw [Store.initFiles, if_neg Bool.false_ne_true]
  refine Env.wp_pure_bind ?_
  refine Prog.wp_bind.2 (wp_recover_dangling hlt hE.mild hj htmp hn (fun _ _ _ _ => trivial)
    fun fs1 hf1 hj1 hgone => ?_)
  have hf : Files st.basePrefix st.count fs1 .empty :=
    Files.of_gone hn hlt (fun s hs => hgone s (spanOf_eq htwo ▸ hs)) (.of_none hj1)
  have hnone1 := (hf1.dir (hn.not_mem .index trivial (by simp))).trans hnone
  refine wp_initIndex_rebuilt (f := fun _ => none) hE hf (Log.empty_scannable _) hnone1
    (fun _ _ => trivial) hvalid hcool hbuf httl hmax (fun k => ?_) fun _ _ h => by cases h
  rw [Log.located_empty]
  rfl

/-- The journal says that copying has begun. -/
theorem Checkpoint.nextSeg_ne (hcp : Checkpoint st L now fs n r fs') (hlt : st.count < 256)
    (hpos : 0 < n) : (st.journalAt L now n).nextSeg ≠ 0 := by
  intro h0
  have hle := hcp.le.2
  have h0' : n % 2 ^ 32 = 0 := congrArg UInt32.toNat h0
  omega

/-- Recovery puts `compact.tmp` in the place of the first segment, and nothing is lost. -/
theorem Checkpoint.rebuilds (hcp : Checkpoint st L now fs n r fs') (h : Holds cfg m st fs L)
    (hcfg : cfg.Ok) (hpos : 0 < n) (hj : fs'.file st.journalName = some (st.journalAt L now n).encode)
    (hund : Underway st L now n fs') : cfg.Rebuilds (fs'.unlink st.indexName) m.lookup := by
  refine fun order => wp_start hcfg order fun st' hpre hsc' hvalid hcool httl hmax hbuf _ => ?_
  have hE : cfg.env.Fits st'.basePrefix st'.count := Config.fits_store hcfg hpre hsc'
  have hd := h.ready.rep.disk
  have hn := hd.names
  have htwo := h.tidy.two_le
  have hlt := hd.lt
  have hcount : st.count = st'.count := by rw [Store.count, Store.count, hsc', h.segmentCount]
  have hpre' : st.basePrefix = st'.basePrefix := h.pre.trans hpre.symm
  obtain ⟨i, x, hi, hdata, hx⟩ := hund
  obtain ⟨ys, tail, rfl, hys, htail⟩ := prefix_recordsBytes hx
  rw [← List.append_assoc, ← recordsBytes_append] at hdata
  -- the index file plays no part in the recovery
  have hfr : Frame (Names st.basePrefix (· = .index)) fs' (fs'.unlink st.indexName) :=
    Frame.unlink (mem_names trivial rfl)
  have hjournal := (hfr.file (hn.not_mem .journal trivial (by simp))).trans hj
  have htmp : (fs'.unlink st.indexName).file st.tmpName
      = some (recordsBytes (st.image L now n ++ ys) ++ tail) := by
    rw [hfr.file (hn.not_mem .tmp trivial (by simp)), FileSystem.file_eq_some hi, hdata]
  rw [Store.initFiles, if_neg Bool.false_ne_true]
  refine Env.wp_pure_bind ?_
  refine Prog.wp_bind.2 (wp_recover_rename (hpre' ▸ hn) (fun _ _ _ => trivial) hE.mild
    (by rw [Store.journalName, ← hpre']; exact hjournal) rfl journalAt_state (hcp.nextSeg_ne hlt hpos)
    (by rw [Store.tmpName, ← hpre']; exact htmp) fun fs1 hf1 hj1 hseg => ?_)
  rw [Store.journalName, ← hpre'] at hj1
  rw [Store.segmentName, ← hpre'] at hseg
  rw [← hpre'] at hf1
  have hfiles : Files st.basePrefix st.count fs1 (L.merged ⟨st.image L now n ++ ys, tail⟩ r) := by
    refine hcp.files_merged hd htwo ?_ (.of_none hj1) hseg
    refine (hfr.mono fun p hp => hp.mono (fun a ha => .inr (.inl ha)) p).trans
      (hf1.mono fun p hp => hp.mono (fun a ha => ?_) p)
    exact ha.imp_right .inr
  have hnone1 : fs1.dir st.indexName = none := by
    refine (hf1.dir (hn.not_mem .index trivial ?_)).trans FileSystem.dir_unlink_self
    rintro (h | h)
    · exact h
    · cases h
  have hsc : (L.merged ⟨st.image L now n ++ ys, tail⟩ r).Scannable st.count := by
    refine h.tidy.scannable_merged htail fun y hy => ?_
    obtain ⟨k, t, ht, rfl⟩ := h.copies_live hys hy
    exact (h.tidy.record ht).1
  rw [hpre', hcount] at hfiles
  rw [hcount] at hsc
  rw [Store.indexName, hpre'] at hnone1
  refine Prog.wp_mono (wp_initIndex_rebuilt hE hfiles hsc hnone1 (fun _ _ => trivial) hvalid hcool hbuf httl hmax (f := fun k => (L.live k).map Located.record)
    (fun k => ?_) fun k r hr => ?_) fun y fs2 hy => ?_
  · rw [← hcount]
    exact h.replay_merged hys hcp.le.1 hpos hcp.le.2 k
  · obtain ⟨t, ht, rfl⟩ := Option.map_eq_some_iff.1 hr
    exact (h.tidy.record ht).2
  · obtain ⟨L', hL'⟩ := hy
    refine ⟨L', hL'.rep, hL'.ttl, hL'.timeless, fun k => ?_⟩
    rw [hL'.view, ← h.view, Log.view, Option.map_map]
    rfl

/-- The record the index leads to can still be reached: in a segment that is still there, or in a
`compact.tmp` that the journal tells of. -/
def Config.Kept (cfg : Config) (st : Store) (fs : FileSystem) (key : Key) : Prop :=
  ¬cfg.Dangling fs ∧ (fs.file (storePath cfg.pre .journal) = some [] →
    ∀ e, st.indexFind key = some e →
      (fs.dir (storePath cfg.pre (.segment e.segment.toNat))).isSome)

/-- A live record is gone with its segment. -/
theorem Checkpoint.dir_isSome_iff (hcp : Checkpoint st L now fs n r fs')
    (hd : Disk st.basePrefix st.count fs L) (htwo : 2 ≤ st.count) {k : Key} {t : Located}
    (ht : L.live k = some t) :
    (fs'.dir (st.segmentName t.indexValue.segment.toNat)).isSome ↔ r ≤ t.seg := by
  rw [hd.indexValue_segment ht]
  constructor
  · intro hsome
    by_contra hlt
    rw [hcp.gone _ (Nat.not_le.1 hlt)] at hsome
    cases hsome
  · intro hle
    obtain ⟨g, hg, -⟩ := hd.ok.has k t (hd.ok.sub k t ht)
    have hfile := hcp.segment hd (spanOf_eq htwo ▸ hd.ok.segs_lt _ g hg) hle
    rw [hg] at hfile
    obtain ⟨i, hi, -⟩ := Option.map_eq_some_iff.1 hfile
    rw [hi]
    rfl

/-- **Without a journal that tells of `compact.tmp`**, what was in the segments that have been removed
is lost. -/
theorem Checkpoint.rebuilds_settled (hcp : Checkpoint st L now fs n r fs') (h : Holds cfg m st fs L)
    (hcfg : cfg.Ok) (hset : Settled st.basePrefix fs')
    (hj : r = 0 ∨ fs'.file st.journalName = some []) :
    ∃ m', cfg.Rebuilds (fs'.unlink (storePath cfg.pre .index)) m' ∧ ∀ k,
      (cfg.Kept st fs' k → m' k = m.lookup k) ∧ (¬cfg.Kept st fs' k → m' k = none) := by
  have hd := h.ready.rep.disk
  have htwo := h.tidy.two_le
  have hfiles := (hcp.files_without hd htwo hset).unlink_index
  have hrep := h.replay_without (Nat.le_trans hcp.le.1 hcp.le.2)
  have hsc : (L.without r).Scannable st.count := h.tidy.scannable_without
  rw [h.pre, h.count_eq] at hfiles
  rw [h.count_eq] at hrep hsc
  refine ⟨_, hfiles.rebuilds hcfg hsc FileSystem.dir_unlink_self hrep fun k x hx => ?_, fun k => ?_⟩
  · obtain ⟨t, ht, rfl⟩ := Option.map_eq_some_iff.1 hx
    exact (h.tidy.record (Option.filter_eq_some_iff.1 ht).1).2
  have hnot : ¬cfg.Dangling fs' := by
    rintro ⟨hcommit, -⟩
    rw [← h.pre] at hcommit
    exact not_settled_commit hcommit hset
  have hfind : st.indexFind k = (L.live k).map Located.indexValue := h.ready.rep.shows k
  rw [Config.Kept, ← h.pre, ← h.view, Log.view, hfind]
  cases ht : L.live k with
  | none => exact ⟨fun _ => rfl, fun _ => rfl⟩
  | some t =>
    have hiff := hcp.dir_isSome_iff hd htwo ht
    rw [Option.filter_some]
    by_cases hle : r ≤ t.seg
    · rw [if_pos (decide_eq_true hle)]
      refine ⟨fun _ => rfl, fun hk => absurd ⟨hnot, fun _ e he => ?_⟩ hk⟩
      obtain rfl := Option.some.inj he
      exact hiff.2 hle
    · rw [if_neg (by simpa using hle)]
      refine ⟨fun hk => absurd (hiff.1 (hk.2 ?_ _ rfl)) hle, fun _ => rfl⟩
      exact hj.resolve_left (by omega)

/-- **What a start finds** wherever a compaction has been interrupted. -/
theorem Interrupted.rebuilds (hi : Interrupted st L now fs fs') (h : Holds cfg m st fs L)
    (hcfg : cfg.Ok) :
    ∃ m', cfg.Rebuilds (fs'.unlink (storePath cfg.pre .index)) m' ∧ ∀ k,
      (cfg.Kept st fs' k → m' k = m.lookup k) ∧ (¬cfg.Kept st fs' k → m' k = none) := by
  have hd := h.ready.rep.disk
  have hn := hd.names
  have hfr : Frame (Names st.basePrefix (· = .index)) fs' (fs'.unlink st.indexName) :=
    Frame.unlink (mem_names trivial rfl)
  rcases hi with ⟨n, r, hcp, hj, hund⟩ | ⟨hj, hfiles⟩
  · rcases hj with hj | hj | ⟨rfl, hj⟩
    · rcases Nat.eq_zero_or_pos n with rfl | hpos
      · refine hcp.rebuilds_settled h hcfg (fun bs hbs => ?_) (.inl (Nat.le_zero.1 hcp.le.1))
        obtain rfl := Option.some.inj (hj.symm.trans hbs)
        rw [decode_take_encode]
        exact .inr (.inr ⟨journalAt_state, .inl rfl⟩)
      · refine ⟨m.lookup, ?_, fun k => ⟨fun _ => rfl, fun hk => absurd ⟨?_, fun h0 => ?_⟩ hk⟩⟩
        · rw [← h.pre]
          exact hcp.rebuilds h hcfg hpos hj (hund hpos)
        · rintro ⟨hcommit, -⟩
          rw [← h.pre] at hcommit
          have hstate := congrArg (fun bs => (Journal.decode (bs.take Journal.size)).state.toNat)
            (Option.some.inj (hj.symm.trans hcommit))
          rw [decode_take_encode, decode_take_encode] at hstate
          exact journalAt_state hstate
        · rw [← h.pre] at h0
          have hlen := congrArg List.length (Option.some.inj (hj.symm.trans h0))
          rw [Journal.length_encode] at hlen
          cases hlen
    · refine hcp.rebuilds_settled h hcfg (fun bs hbs => ?_) (.inr hj)
      obtain rfl := Option.some.inj (hj.symm.trans hbs)
      exact .inl (by decide)
    · exact hcp.rebuilds_settled h hcfg hj (.inl (Nat.le_zero.1 hcp.le.1))
  · have hj : fs'.file st.journalName = some commitJournal.encode := hj fun _ _ => id
    rcases hfiles with hfile | ⟨hnone, -⟩
    · refine ⟨m.lookup, ?_, fun k => ⟨fun _ => rfl, fun hk => absurd ⟨?_, fun h0 => ?_⟩ hk⟩⟩
      · have hdur : Durable cfg m (fs'.unlink (storePath cfg.pre .index)) := by
          refine .committed (st.image L now st.count) ?_ ?_ (fun x hx => h.image_records hx)
            h.scanned_image
          · rw [← h.pre]
            exact (hfr.file (hn.not_mem .journal trivial (by simp))).trans hj
          · rw [← h.pre]
            exact (hfr.file (hn.not_mem .tmp trivial (by simp))).trans hfile
        refine fun order => Prog.wp_mono (hdur.wp_start hcfg order) fun st' fs'' hL => ?_
        obtain ⟨L', hL'⟩ := hL
        exact ⟨L', hL'.rebuilt⟩
      · rintro ⟨-, hnone⟩
        rw [← h.pre] at hnone
        cases (FileSystem.file_eq_none.2 hnone).symm.trans hfile
      · rw [← h.pre] at h0
        have hlen := congrArg List.length (Option.some.inj (hj.symm.trans h0))
        rw [Journal.length_encode] at hlen
        cases hlen
    · have hdang : cfg.Dangling fs' := by
        rw [Config.Dangling, ← h.pre]
        exact ⟨hj, hnone⟩
      refine ⟨fun _ => none, ?_, fun k => ⟨fun hk => absurd hdang hk.1, fun _ => rfl⟩⟩
      refine Config.Dangling.rebuilds ?_ hcfg FileSystem.dir_unlink_self
      rw [Config.Dangling, ← h.pre]
      exact ⟨(hfr.file (hn.not_mem .journal trivial (by simp))).trans hj,
        (hfr.dir (hn.not_mem .tmp trivial (by simp))).trans hnone⟩

end starts

/-- **What is left without the index file.**  Wherever the power goes during a compaction, and the index
file with it, the next `init` finds a key exactly if the journal still tells of `compact.tmp` or the
segment with the key's record is still there; but it finds nothing at all behind the rename. -/
theorem compaction_crash_rebuild {cfg : Config} (hcfg : cfg.Ok) (order : IterationOrder)
    (commands : List Command) (hc : ∀ c ∈ commands, c.WithinLimits) (fs : FileSystem)
    (hfresh : cfg.Fresh fs)
    (hsmall : ∀ x ∈ Prog.trace posix (cfg.session order commands) fs, cfg.Small x.2) (as : List Answer)
    (st : Store) (fs₁ : FileSystem)
    (hend : Prog.exec posix (cfg.session order commands) fs = ((as, st), fs₁)) (now : UInt32)
    (fs₂ : FileSystem) (hcut : Prog.Cut posix cfg.Small (st.compact now) fs₁ fs₂)
    (order' : IterationOrder)
    (hsmall' : ∀ x ∈ Prog.trace posix (cfg.start order') (fs₂.unlink (storePath cfg.pre .index)),
      cfg.Small x.2) (clk : Clock) (key : Buf) :
    (cfg.Kept st fs₂ key.bytes →
      cfg.getAfter order' (fs₂.unlink (storePath cfg.pre .index)) clk key
        = (Contents.after ∅ commands).lookup key.bytes) ∧
      (¬cfg.Kept st fs₂ key.bytes →
        cfg.getAfter order' (fs₂.unlink (storePath cfg.pre .index)) clk key = none) := by
  obtain ⟨-, L, hL⟩ := session_reaches hcfg order hc hfresh hsmall
  rw [hend] at hL
  obtain ⟨m', hm, hkept⟩ := (hL.interrupted hcfg hcut).rebuilds hL hcfg
  rw [hm.getAfter hsmall']
  exact hkept key.bytes

/-- It meets the conditions. -/
theorem tinyConfig_ok : tinyConfig.Ok where
  pre := by decide
  segmentSize := by decide
  segmentCount := by decide

/-- Two keys in a segment each. -/
def twoKeys : (List Answer × Store) × FileSystem :=
  Prog.exec posix (tinyConfig.session .recent twoPuts) .empty

theorem twoKeysTorn_lt : 35 < (Prog.trace posix (twoKeys.1.2.compact 0) twoKeys.2).length := by
  decide +kernel

/-- The power goes while the journal is rewritten for the second segment: the first one is gone. -/
def twoKeysTorn : FileSystem :=
  ((Prog.trace posix (twoKeys.1.2.compact 0) twoKeys.2).get ⟨35, twoKeysTorn_lt⟩).2

theorem compaction_crash_rebuild_sample :
    tinyConfig.getAfter .recent (twoKeysTorn.unlink (storePath tinyConfig.pre .index)) ⟨0, 0, 0⟩
        (.at [97]) = none ∧
      tinyConfig.getAfter .recent (twoKeysTorn.unlink (storePath tinyConfig.pre .index)) ⟨0, 0, 0⟩
        (.at [98]) = some [2] := by
  have h (key : Buf) := compaction_crash_rebuild tinyConfig_ok .recent twoPuts
    (by simp [twoPuts, Command.WithinLimits, Buf.bytes, maxKeyLen, maxValueLen]) .empty (fun _ _ => rfl)
    (by decide +kernel) twoKeys.1.1 twoKeys.1.2 twoKeys.2 rfl 0 twoKeysTorn
    ⟨⟨35, twoKeysTorn_lt⟩, rfl, by decide +kernel⟩ .recent (by decide +kernel) ⟨0, 0, 0⟩ key
  have hthere : ¬tinyConfig.Dangling twoKeysTorn := fun hno => absurd hno.2 (by decide +kernel)
  constructor
  · refine (h (.at [97])).2 fun hk => ?_
    have hsome : ∀ e ∈ twoKeys.1.2.indexFind [97],
        (twoKeysTorn.dir (storePath tinyConfig.pre (.segment e.segment.toNat))).isSome :=
      hk.2 (by decide +kernel)
    revert hsome
    decide +kernel
  · have hsome : ∀ e ∈ twoKeys.1.2.indexFind [98],
        (twoKeysTorn.dir (storePath tinyConfig.pre (.segment e.segment.toNat))).isSome := by
      decide +kernel
    refine ((h (.at [98])).1 ⟨hthere, fun _ => hsome⟩).trans ?_
    decide +kernel

end MicroStore
