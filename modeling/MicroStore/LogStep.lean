import MicroStore.Finalizing

/-!
# Steps of a log

The changes the operations make to a log, apart from their calls.  There are four of them, and every
operation of a store is made of these.

## What is here

* `Log.opened` — a segment is opened, which adds an empty one if it was not there.
* `Log.append` — a put or a remove appends a record to a segment and an entry to the index file.
  `Log.place` is where the record is.
* `Log.narrow` (from `Finalizing.lean`) — keys are dropped from the index in memory, by eviction or
  because they have expired.  The files do not change.
* `Log.compacted` (also from there) — everything is replaced by the records that survive.

For each of them: the log stays well formed (`Log.Ok`), its entries go on leading to records
(`Log.Sound`), and where a scan agreed with the index file it goes on doing so (`Log.Ordered`,
`Log.Tidy`).

The last of these needs the order of the segments.  A record that is appended has to be behind all
others in the order of a scan, and it is, since there are no segments behind the current one; a
compaction restores this by going back to segment 0.
-/

set_option autoImplicit false

namespace MicroStore

/-- A segment with one more record at its end. -/
def Segment.append (g : Segment) (r : Record) : Segment :=
  if g.tail = [] then ⟨g.records ++ [r], []⟩ else ⟨g.records, g.tail ++ r.bytes⟩

/-- A record is appended to a segment without a torn end. -/
theorem Segment.bytes_append (g : Segment) (r : Record) : (g.append r).bytes = g.bytes ++ r.bytes := by
  rw [append]
  split
  · next h => simp [bytes, h]
  · simp [bytes]

namespace Log

variable {L : Log} {s count : Nat} {g : Segment} {r : Record}

/-- Every entry of the index file leads to a record of its key that is there, or drops its key. -/
def Sound (L : Log) : Prop :=
  ∀ e ∈ L.entries, e.seg.toNat ≠ deletedSeg → ∃ t, e.Leads t ∧ L.Has t ∧ t.off < 2 ^ 24 ∧
    ¬t.record.deletes

/-- Longer segments, a larger log. -/
theorem size_le {L' : Log} (h : ∀ s, ((L.segs s).elim [] Segment.bytes).length
    ≤ ((L'.segs s).elim [] Segment.bytes).length) (n : Nat) : L.size n ≤ L'.size n := by
  induction n with
  | zero => exact Nat.le_refl 0
  | succ n ih => exact Nat.add_le_add ih (h n)

/-! ## Opening a segment

No record is added or moved, so nothing changes for any key. -/

/-- Segment `s` is there, if only empty. -/
def opened (L : Log) (s : Nat) : Log :=
  { L with segs := Function.update L.segs s (some ((L.segs s).getD ⟨[], []⟩)) }

theorem segs_opened_self : (L.opened s).segs s = some ((L.segs s).getD ⟨[], []⟩) :=
  Function.update_self ..

theorem segs_opened_ne {s' : Nat} (h : s' ≠ s) : (L.opened s).segs s' = L.segs s' :=
  Function.update_of_ne h ..

/-- A segment that is there once another has been opened was there before or is empty. -/
theorem segs_opened {s' : Nat} (hg : (L.opened s).segs s' = some g) :
    L.segs s' = some g ∨ s' = s ∧ g = ⟨[], []⟩ := by
  by_cases he : s' = s
  · subst he
    rw [segs_opened_self, Option.some.injEq] at hg
    cases h : L.segs s' with
    | none => rw [h] at hg; exact .inr ⟨rfl, hg.symm⟩
    | some g' => rw [h] at hg; exact .inl (congrArg some hg)
  · exact .inl ((segs_opened_ne he).symm.trans hg)

/-- A segment that is there stays as it is. -/
theorem segs_opened_of_some {s' : Nat} (hg : L.segs s' = some g) : (L.opened s).segs s' = some g := by
  by_cases he : s' = s
  · subst he
    rw [segs_opened_self, hg, Option.getD_some]
  · rw [segs_opened_ne he, hg]

/-- Records stay where they are. -/
theorem Has.opened {t : Located} (h : L.Has t) : (L.opened s).Has t := by
  obtain ⟨g, hg, hpre⟩ := h
  exact ⟨g, segs_opened_of_some hg, hpre⟩

theorem segLocated_opened (s' : Nat) : (L.opened s).segLocated s' = L.segLocated s' := by
  by_cases h : s' = s
  · subst h
    rw [segLocated, segLocated, segs_opened_self]
    cases L.segs s' <;> rfl
  · rw [segLocated, segLocated, segs_opened_ne h]

theorem located_opened (n : Nat) : (L.opened s).located n = L.located n :=
  located_congr fun s' _ => segLocated_opened s'

@[simp] theorem view_opened : (L.opened s).view = L.view := rfl

/-- The log stays well formed. -/
theorem opened_ok (h : L.Ok count) (hs : s < spanOf count) : (L.opened s).Ok count :=
  { h with
    segs_lt := fun s' g hg => by
      rcases segs_opened hg with hg | ⟨rfl, -⟩
      · exact h.segs_lt s' g hg
      · exact hs
    has := fun k t ht => (h.has k t ht).opened
    entries_le := by
      refine Nat.le_trans h.entries_le (Nat.add_le_add_left (size_le (fun s' => ?_) _) _)
      cases hg : L.segs s' with
      | none => exact Nat.zero_le _
      | some g =>
        rw [segs_opened_of_some hg] }

/-- Entries go on leading to records. -/
theorem opened_sound (h : L.Sound) : (L.opened s).Sound := fun e he hne => by
  obtain ⟨t, hl, ht, hoff, hd⟩ := h e he hne
  exact ⟨t, hl, ht.opened, hoff, hd⟩

/-- Opening the last segment there is, or one behind it. -/
theorem opened_ordered {cur : Nat} (h : L.Ordered count cur) (habove : ∀ s', s < s' → L.segs s' = none) :
    (L.opened s).Ordered count s where
  two_le := h.two_le
  above s' hs := (segs_opened_ne (Nat.ne_of_gt hs)).trans (habove s' hs)
  tail s' g hg := by
    rcases segs_opened hg with hg | ⟨-, rfl⟩
    · exact h.tail s' g hg
    · rfl
  key s' g hg := by
    rcases segs_opened hg with hg | ⟨-, rfl⟩
    · exact h.key s' g hg
    · intro r hr
      cases hr
  scan k t ht := by
    rw [located_opened]
    exact h.scan k t ht

/-- A tidy log stays tidy, if no segments follow the one that is opened. -/
theorem opened_tidy {cur : Nat} (h : L.Tidy count cur) (habove : ∀ s', s < s' → L.segs s' = none) :
    (L.opened s).Tidy count s where
  toOrdered := opened_ordered h.toOrdered habove
  ttl s' g hg := by
    rcases segs_opened hg with hg | ⟨-, rfl⟩
    · exact h.ttl s' g hg
    · intro r hr
      cases hr
  saved := h.saved
  replay := by
    rw [located_opened]
    exact h.replay

/-- Which keys the index still has makes no difference to the segments and the index file. -/
theorem Ordered.narrow {cur : Nat} {m : Live} (h : L.Ordered count cur) :
    (L.narrow m).Ordered count cur :=
  { h with
    scan := fun k t ht => by
      rw [@located_congr (L.narrow m) L count fun _ _ => rfl]
      exact h.scan k t ht }

/-! ## Appending a record

The record goes to the end of a segment and its entry to the end of the index file, so for its key
both a scan and a replay now lead to it, or to nothing if it is a tombstone. -/

/-- The place of a record appended to segment `s`. -/
def place (L : Log) (s : Nat) (r : Record) : Located :=
  ⟨s, ((L.segs s).elim [] Segment.bytes).length, r⟩

/-- Append a record to segment `s` and its entry to the index file. -/
def append (L : Log) (s : Nat) (r : Record) : Log where
  segs := Function.update L.segs s (some (((L.segs s).getD ⟨[], []⟩).append r))
  live := L.live.apply (L.place s r)
  saved := L.saved.apply (L.place s r)
  entries := L.entries ++ [(L.place s r).entry]
  indexTail := []

/-- What is live afterwards. -/
theorem live_append : (L.append s r).live = L.live.apply (L.place s r) := rfl

theorem segs_append_self (hg : L.segs s = some g) : (L.append s r).segs s = some (g.append r) := by
  rw [append, hg]
  exact Function.update_self ..

theorem segs_append_ne {s' : Nat} (h : s' ≠ s) : (L.append s r).segs s' = L.segs s' :=
  Function.update_of_ne h ..

section append

variable (hg : L.segs s = some g)
include hg

/-- The record begins where the segment ended. -/
theorem place_eq : L.place s r = ⟨s, g.bytes.length, r⟩ := by
  rw [place, hg, Option.elim_some]

/-- The other records stay where they are. -/
theorem Has.append {t : Located} (h : L.Has t) : (L.append s r).Has t := by
  obtain ⟨g', hg', hpre⟩ := h
  by_cases he : t.seg = s
  · rw [he] at hg'
    obtain rfl : g = g' := Option.some.inj (hg.symm.trans hg')
    refine ⟨g.append r, by rw [he, segs_append_self hg], ?_⟩
    rw [Segment.bytes_append, List.drop_append]
    exact hpre.trans (List.prefix_append ..)
  · exact ⟨g', (segs_append_ne he).trans hg', hpre⟩

/-- The new one is there. -/
theorem has_place : (L.append s r).Has (L.place s r) := by
  have hdrop : (g.append r).bytes.drop (L.place s r).off = r.bytes := by
    rw [place_eq hg, Segment.bytes_append, List.drop_left]
  have hrecord : (L.place s r).record = r := by rw [place_eq hg]
  exact ⟨g.append r, segs_append_self hg, [], by rw [hdrop, hrecord, List.append_nil]⟩

variable (hs : s < spanOf count)
include hs

/-- The log grows by the record. -/
theorem size_append : (L.append s r).size (spanOf count) = L.size (spanOf count) + r.size := by
  have hsame (n : Nat) (hn : n ≤ s) : (L.append s r).size n = L.size n := by
    induction n with
    | zero => rfl
    | succ n ih => rw [size, size, ih (Nat.le_of_succ_le hn), segs_append_ne (Nat.ne_of_lt hn)]
  have hstep (n : Nat) (hn : s < n) : (L.append s r).size n = L.size n + r.size := by
    induction n with
    | zero => cases hn
    | succ n ih =>
      rw [size, size]
      rcases Nat.lt_succ_iff_lt_or_eq.1 hn with h | rfl
      · rw [ih h, segs_append_ne (Nat.ne_of_gt h)]
        omega
      · rw [hsame s (Nat.le_refl s), segs_append_self hg, hg, Option.elim_some, Option.elim_some,
          Segment.bytes_append, List.length_append, Record.length_bytes, Nat.add_assoc]
  exact hstep _ hs

/-- The log stays well formed, as long as the offset fits the index. -/
theorem append_ok (h : L.Ok count) (hlt : count < 256) (hoff : g.bytes.length < 2 ^ 24) :
    (L.append s r).Ok count := by
  have hplace := place_eq (r := r) hg
  have hs256 := Nat.lt_trans hs (spanOf_lt hlt)
  -- a saved key of the new log is the appended one or was saved before
  have hsaved {k : Key} {t : Located} (ht : (L.append s r).saved k = some t) :
      (t = L.place s r ∧ k = r.key ∧ ¬r.deletes) ∨ L.saved k = some t := by
    by_cases hk : k = (L.place s r).record.key
    · subst hk
      have ht : L.saved.apply (L.place s r) _ = some t := ht
      rw [Live.apply_self] at ht
      split at ht
      · cases ht
      · exact .inl ⟨(Option.some.inj ht).symm, rfl, ‹_›⟩
    · exact .inr ((Live.apply_ne hk).symm.trans ht)
  exact
    { segs_lt := fun s' g' hg' => by
        by_cases he : s' = s
        · rw [he]
          exact hs
        · exact h.segs_lt s' g' ((segs_append_ne he).symm.trans hg')
      sub := fun k t ht => by
        by_cases hk : k = (L.place s r).record.key
        · subst hk
          exact (L.saved.apply_self _).trans ((L.live.apply_self _).symm.trans ht)
        · exact (Live.apply_ne hk).trans (h.sub k t ((Live.apply_ne hk).symm.trans ht))
      has := fun k t ht => by
        rcases hsaved ht with ⟨rfl, -⟩ | ht
        · exact has_place hg
        · exact (h.has k t ht).append hg
      key := fun k t ht => by
        rcases hsaved ht with ⟨rfl, rfl, -⟩ | ht
        · rfl
        · exact h.key k t ht
      put := fun k t ht => by
        rcases hsaved ht with ⟨rfl, -, hd⟩ | ht
        · exact hd
        · exact h.put k t ht
      off := fun k t ht => by
        rcases hsaved ht with ⟨rfl, -⟩ | ht
        · rw [hplace]
          exact hoff
        · exact h.off k t ht
      entries := by
        rw [append, List.foldl_append]
        refine Located.entry_shows ?_ ?_ h.entries
        · rw [hplace]
          exact hs256
        · rw [hplace]
          exact Nat.lt_trans hoff (by decide)
      entries_le := by
        have hsize := size_append (r := r) hg hs
        have hr : 25 ≤ r.size := by
          rw [Record.size, headerSize, commitSize]
          omega
        have hle := h.entries_le
        rw [append, List.length_append, List.length_singleton]
        rw [append] at hsize
        omega }

/-- The new entry leads to the new record. -/
theorem append_sound (h : L.Sound) (hlt : count < 256) (hoff : g.bytes.length < 2 ^ 24) :
    (L.append s r).Sound := by
  have hplace := place_eq (r := r) hg
  intro e he hne
  rcases List.mem_append.1 he with he | he
  · obtain ⟨t, hl, ht, ho, hd⟩ := h e he hne
    exact ⟨t, hl, ht.append hg, ho, hd⟩
  · obtain rfl := List.mem_singleton.1 he
    have hd : ¬(L.place s r).record.deletes := fun hd => hne (Located.entry_deletes hd)
    refine ⟨_, Located.entry_leads ?_ ?_ hd, has_place hg, ?_, hd⟩
    · rw [hplace]
      exact Nat.lt_trans hs (spanOf_lt hlt)
    · rw [hplace]
      exact Nat.lt_trans hoff (by decide)
    · rw [hplace]
      exact hoff

end append

/-- A segment after the append was there before, or it is the one with the record. -/
theorem segs_append_cases (hg : L.segs s = some g) (htail : g.tail = []) {s' : Nat} {g' : Segment}
    (hg' : (L.append s r).segs s' = some g') :
    L.segs s' = some g' ∨ g' = ⟨g.records ++ [r], []⟩ := by
  by_cases he : s' = s
  · rw [he, segs_append_self hg, Segment.append, if_pos htail] at hg'
    exact .inr (Option.some.inj hg').symm
  · exact .inl ((segs_append_ne he).symm.trans hg')

/-- What is appended to the last segment comes last in a scan. -/
theorem located_append {cur : Nat} (h : L.Ordered count cur) (hcur : cur = s) (hg : L.segs s = some g)
    (hs : s < count) : (L.append s r).located count = L.located count ++ [L.place s r] := by
  subst hcur
  have htail := h.tail cur g hg
  have hplace : L.place cur r = ⟨cur, (recordsBytes g.records).length, r⟩ := by
    rw [place_eq hg, Segment.bytes, htail, List.append_nil]
  have hloc : (L.append cur r).segLocated cur = L.segLocated cur ++ [L.place cur r] := by
    rw [segLocated, segLocated, segs_append_self hg, hg, hplace, Segment.append, if_pos htail]
    dsimp only
    rw [locate_append, Nat.zero_add]
    rfl
  have hrest (s' : Nat) (hs' : s' < cur) : (L.append cur r).segLocated s' = L.segLocated s' := by
    rw [segLocated, segLocated, segs_append_ne (Nat.ne_of_lt hs')]
  have habove : ∀ s', cur < s' → (L.append cur r).segs s' = none := fun s' hs' =>
    (segs_append_ne (Nat.ne_of_gt hs')).trans (h.above s' hs')
  rw [located_eq habove hs, located_eq h.above hs, located, located, hloc, List.append_assoc,
    located_congr hrest]

/-- Appending to the last segment of an ordered log. -/
theorem append_ordered (hg : L.segs s = some g) (h : L.Ordered count s) (hs : s < count)
    (hkey : r.key ≠ []) : (L.append s r).Ordered count s := by
  have htail := h.tail s g hg
  refine ⟨h.two_le, fun s' hs' => (segs_append_ne (Nat.ne_of_gt hs')).trans (h.above s' hs'),
    fun s' g' hg' => ?_, fun s' g' hg' => ?_, fun k t ht => ?_⟩
  · rcases segs_append_cases hg htail hg' with hg' | rfl
    · exact h.tail s' g' hg'
    · rfl
  · rcases segs_append_cases hg htail hg' with hg' | rfl
    · exact h.key s' g' hg'
    · intro r' hr'
      rcases List.mem_append.1 hr' with hr' | hr'
      · exact h.key s g hg r' hr'
      · rw [List.mem_singleton.1 hr']
        exact hkey
  · -- the record is the last one of its key, and the others are where they were
    have ht : L.saved.apply (L.place s r) k = some t := ht
    rw [located_append h rfl hg hs, replay_append]
    change (replay (L.located count) fun _ => none).apply (L.place s r) k = some t
    by_cases hk : k = (L.place s r).record.key
    · subst hk
      rw [Live.apply_self] at ht ⊢
      exact ht
    · rw [Live.apply_ne hk] at ht ⊢
      exact h.scan k t ht

/-- Appending to the last segment of a tidy log. -/
theorem append_tidy (hg : L.segs s = some g) (h : L.Tidy count s) (hs : s < count) (hkey : r.key ≠ [])
    (httl : ¬r.deletes → r.hdr.ttl = 0) : (L.append s r).Tidy count s where
  toOrdered := append_ordered hg h.toOrdered hs hkey
  ttl s' g' hg' := by
    rcases segs_append_cases hg (h.tail s g hg) hg' with hg' | rfl
    · exact h.ttl s' g' hg'
    · intro r' hr' hd
      rcases List.mem_append.1 hr' with hr' | hr'
      · exact h.ttl s g hg r' hr' hd
      · rw [List.mem_singleton.1 hr'] at hd ⊢
        exact httl hd
  saved := congrArg (Live.apply · (L.place s r)) h.saved
  replay := by
    rw [located_append h.toOrdered rfl hg hs, replay_append, ← h.replay]
    rfl

/-- The map of keys and values changes at this key. -/
theorem view_append : (L.append s r).view
    = Function.update L.view r.key (if r.deletes then none else some r.value) := by
  funext k
  by_cases hk : k = r.key
  · subst hk
    have hlive : L.live.apply (L.place s r) r.key = if r.deletes then none else some (L.place s r) :=
      L.live.apply_self (L.place s r)
    rw [Function.update_self, view, live_append, hlive]
    split <;> rfl
  · have hlive : L.live.apply (L.place s r) k = L.live k := Live.apply_ne hk
    rw [Function.update_of_ne hk, view, live_append, hlive, view]

/-! ## Compacting

The log after a compaction is new from the ground up; what is shown is that it leads to the same
records. -/

/-- The entries written by a compaction lead to the copies. -/
theorem compacted_sound {rs : List Record} {es : List IndexEntry}
    (hes : ∀ e ∈ es, ∃ t, scanned rs e.key = some t ∧ e.Leads t)
    (hok : (L.compacted count rs es).Ok count) : (L.compacted count rs es).Sound := by
  intro e he _
  obtain ⟨t, ht, hl⟩ := hes e he
  exact ⟨t, hl, hok.has _ t ht, hok.off _ t ht, hok.put _ t ht⟩

section compacted

variable {st : Store} {pre : Path} {fs : FileSystem} {now : UInt32} {es : List IndexEntry}
  {cur : Nat}

/-- A compaction of an ordered log leaves an ordered log. -/
theorem Ordered.compacted {m : Live} (h : L.Ordered count cur) (hd : Disk pre count fs (L.narrow m))
    (hs : st.index.Shows (L.narrow m).live) (cur' : Nat) :
    (L.compacted count (st.image (L.narrow m) now count) es).Ordered count cur' := by
  refine compacted_ordered h.two_le (fun s g hg => spanOf_eq h.two_le ▸ hd.ok.segs_lt s g hg)
    fun r hr => ?_
  obtain ⟨t, ht, rfl, -⟩ := image_put hd hs hr
  exact h.key_ne (hd.ok.sub _ t ht)

/-- Every key of a tidy log survives when there is no TTL. -/
theorem Tidy.survivors (h : L.Tidy count cur) (hd : Disk pre count fs L)
    (httl : st.policyTtlSecs = 0) : st.survivors L now count = L.live := by
  funext k
  ext t
  rw [survivors_eq_some]
  refine ⟨fun h => h.1, fun ht => ⟨ht, expires_eq_false httl (h.record ht).2 now, ?_⟩⟩
  obtain ⟨g, hg, -⟩ := hd.ok.has k t (hd.ok.sub k t ht)
  exact spanOf_eq h.two_le ▸ hd.ok.segs_lt _ g hg

/-- **A compaction keeps the keys and their values.** -/
theorem Tidy.compacted (h : L.Tidy count cur) (hd : Disk pre count fs L)
    (hs : st.index.Shows L.live) (httl : st.policyTtlSecs = 0) (cur' : Nat) :
    (L.compacted count (st.image L now count) es).Tidy count cur' ∧
      (L.compacted count (st.image L now count) es).view = L.view := by
  have hmem {r : Record} (hr : r ∈ st.image L now count) : r.key ≠ [] ∧ r.hdr.ttl = 0 := by
    obtain ⟨t, ht, rfl, -⟩ := image_put hd hs hr
    exact h.record ht
  have hsurv := @Tidy.survivors _ _ st _ fs now _ h hd httl
  constructor
  · exact compacted_tidy h.two_le (fun s g hg => spanOf_eq h.two_le ▸ hd.ok.segs_lt s g hg)
      (fun r hr => (hmem hr).1) fun r hr => (hmem hr).2
  · funext k
    have hnil : st.survivors L now count [] = none := by
      rw [hsurv]
      cases hl : L.live [] with
      | none => rfl
      | some t => exact absurd (hd.ok.key _ t (hd.ok.sub _ t hl)) (h.record hl).1
    have hv := congrArg (Option.map Record.value) (scanned_image_eq hd hs hnil k)
    rw [Option.map_map, Option.map_map, hsurv] at hv
    exact hv

end compacted

end Log

end MicroStore
