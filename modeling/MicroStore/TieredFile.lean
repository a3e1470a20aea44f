import MicroStore.Overloads
import MicroStore.TieredSession

/-!
# A tiered store over a file store

The store below is a file store (`fileBacking`).  Without faults, with at least two segments and with
the keys, values and TTLs it can keep (`StoreCall.Regular`), it is a lawful store
(`fileBacking_lawful`).

## What is here

* `Moment` — the circumstances of a call: the clock readings and what uninitialised header fields hold.
* `fileCall`, `fileBacking` — a call of the interface as an operation of the file store, and the file
  store as a store below.
* `StoreCall.Regular` — the calls for which a file store is a map: a key that is not empty, lengths
  within the limits and a TTL of 24 bits.
* `Log.holdings`, `FileHolds` — what a file store holds, as a map of raw records.
* `FileHolds.put`, `FileHolds.get` and so on — one lemma for each call.
* `fileBacking_lawful` — the laws, for a store with or without a limit; `fileBacking_keeps` is the case
  without one.

This is where the two halves of the development meet: the invariant of runs of a file store (`Held`) on
one side, the laws a tiered store needs (`StoreRel.Lawful`) on the other.
-/

set_option autoImplicit false

namespace MicroStore

/-- What a call on a file store finds: the clock, and what the header of a tombstone holds in its
uninitialised fields. -/
structure Moment where
  /-- What the clock says. -/
  clock : Clock
  /-- The TTL in the header of a removal. -/
  junkTtl : UInt32
  /-- And its priority. -/
  junkPriority : UInt8

/-- The call on a file store, by the overloads that take vectors. -/
def fileCall (st : Store) (e : Moment) : (c : StoreCall) → FsM (c.Reply × Store)
  | .isValid => pure (st.valid, st)
  | .put k v ttl ts priority => st.put e.clock (Buf.at k).asKey (Buf.at v).asValue ttl ts priority
  | .get k => st.getValue e.clock (Buf.at k).asKey
  | .exists k => pure (st.exists e.clock (Buf.at k).asKey)
  | .remove k => st.remove e.clock (Buf.at k).asKey e.junkTtl e.junkPriority
  | .size => pure (st.size, st)
  | .iterate => do
    let (es, st) ← st.iterate
    pure (es.map fun e => (e.key, e.value), st)
  | .clear => do
    let st ← st.clear
    pure ((), st)

/-- No segment file reaches `2 ^ 24` bytes during the call. -/
def Setup.SmallCall (su : Setup) (e : Moment) (c : StoreCall) (s : Store × FileSystem) : Prop :=
  ∀ x ∈ Prog.trace posix (fileCall s.1 e c) s.2, su.Small x.2

instance (su : Setup) (e : Moment) (c : StoreCall) (s : Store × FileSystem) :
    Decidable (su.SmallCall e c s) :=
  inferInstanceAs (Decidable (∀ _ ∈ _, _))

/-- The lengths are not cut by the overloads, and the key put is not empty and its TTL not cut by the
index. -/
def StoreCall.Regular : StoreCall → Prop
  | .put k v ttl _ _ => k ≠ [] ∧ k.length < 2 ^ 8 ∧ v.length < 2 ^ 16 ∧ ttl.toNat < 2 ^ 24
  | .get k | .exists k | .remove k => k.length < 2 ^ 8
  | .isValid | .size | .iterate | .clear => True

instance (c : StoreCall) : Decidable c.Regular := by
  cases c <;> dsimp only [StoreCall.Regular] <;> infer_instance

/-- A file store below. -/
def fileBacking (su : Setup) : Backing Moment (Store × FileSystem) where
  time e := e.clock.time
  handle e c s :=
    let y := Prog.exec posix (fileCall s.1 e c) s.2
    (y.1.1, y.1.2, y.2)
  fine e c s := su.SmallCall e c s ∧ c.Regular
  decidableFine _ _ _ := inferInstance

/-- What a tiered store reads of a record. -/
def Record.raw (r : Record) : RawRecord := ⟨r.value, r.hdr.ttl, r.hdr.timestamp⟩

/-- The records the log shows. -/
def Log.holdings (L : Log) : Holdings := fun k => (L.live k).map fun t => t.record.raw

/-- The file store holds these records, within its limits. -/
def FileHolds (su : Setup) (s : Store × FileSystem) (m : Holdings) : Prop :=
  ∃ mm L, Held su false mm s.1 s.2 L ∧ (∀ k t, L.live k = some t →
    k ≠ [] ∧ k.length ≤ maxKeyLen ∧ t.record.hdr.ttl.toNat < 2 ^ 24) ∧ m = L.holdings

section file

variable {su : Setup} {mm : Key → Option Record} {st st' : Store} {fs fs' : FileSystem} {L L' : Log}

/-- A store that has started without files holds nothing. -/
theorem Setup.Starts.fileHolds {order : IterationOrder} (h : su.Starts order fs) :
    FileHolds su (Prog.exec posix (su.start order) fs) fun _ => none := by
  obtain ⟨L, h, -⟩ := h.held
  have hnone (k : Key) : L.live k = none := h.live_none rfl
  refine ⟨_, L, h, fun k t ht => ?_, funext fun k => ?_⟩
  · cases (hnone k).symm.trans ht
  · rw [Log.holdings, hnone]
    rfl

/-- An operation treats each key on its own. -/
theorem Operation.next_congr {op : Operation} {m m' : Key → Option Record} {k : Key}
    (h : op.puts = some k ∨ m k = m' k) (hlim : ∀ clk key data ttl ts priority,
      op = .put clk key data ttl ts priority →
      key.bytes.length ≤ maxKeyLen ∧ data.bytes.length ≤ maxValueLen) : op.next m k = op.next m' k := by
  cases op with
  | put clk key data ttl ts priority =>
    rw [Operation.next, Operation.next, dif_pos (hlim _ _ _ _ _ _ rfl), dif_pos (hlim _ _ _ _ _ _ rfl)]
    by_cases hk : k = key.bytes
    · rw [hk, Function.update_self, Function.update_self]
    · rw [Function.update_of_ne hk, Function.update_of_ne hk]
      exact h.resolve_left fun he => hk (Option.some.inj he).symm
  | remove clk key junkTtl junkPriority =>
    have h := h.resolve_left (by rintro ⟨⟩)
    rw [Operation.next, Operation.next]
    split
    · by_cases hk : k = key.bytes
      · rw [hk, Function.update_self, Function.update_self]
      · rwa [Function.update_of_ne hk, Function.update_of_ne hk]
    · exact h
  | clear => rfl
  | get | «exists» | size | iterate | compact | restart => exact h.resolve_left (by rintro ⟨⟩)

/-- What the log shows after an operation is what the operation makes of what it showed before. -/
theorem Held.live_next (h : Held su false mm st fs L) {op : Operation} {b : Bool}
    (h' : Held su b (op.next mm) st' fs' L') (hf : op.Follows st fs L st' L')
    (hop : op.restarts = false) (hlim : ∀ clk key data ttl ts priority,
      op = .put clk key data ttl ts priority →
      key.bytes.length ≤ maxKeyLen ∧ data.bytes.length ≤ maxValueLen)
    {k : Key} {t' : Located} (ht' : L'.live k = some t') :
    op.next (fun k => (L.live k).map Located.record) k = some t'.record := by
  rw [← h'.records k t' (h'.rep.disk.ok.sub k t' ht')]
  refine Operation.next_congr ?_ hlim
  rcases hf.live k (by rw [ht']; rfl) with hput | hlive | ⟨hrestart, -⟩
  · exact .inl hput
  · obtain ⟨t, ht⟩ := Option.isSome_iff_exists.1 hlive
    refine .inr ?_
    rw [ht, h.records k t (h.rep.disk.ok.sub k t ht)]
    rfl
  · cases hop.symm.trans hrestart

/-- Whether a record has expired, if its TTL is not cut. -/
theorem Held.expires_raw (h : Held su false mm st fs L) {now : UInt32} {r : Record}
    (hr : r.hdr.ttl.toNat < 2 ^ 24) :
    st.expires now r = true ↔ r.raw.Over su.ttlSecs now := by
  have hmod : r.hdr.ttl % 16777216 = r.hdr.ttl := by
    rw [← UInt32.toNat_inj, UInt32.toNat_mod]
    exact Nat.mod_eq_of_lt hr
  rw [h.expires_iff, hmod]
  exact Iff.rfl

/-- What a lookup shows. -/
theorem Held.visible_eq (h : Held su false mm st fs L) {now : UInt32} {k : Key}
    (hreg : ∀ t, L.live k = some t → t.record.hdr.ttl.toNat < 2 ^ 24) :
    st.visible L now k = (L.holdings.shown su.ttlSecs now k).map RawRecord.value := by
  rw [Store.visible, Holdings.shown, Log.holdings]
  cases hl : L.live k with
  | none => rfl
  | some t =>
    rw [Option.map_some, Option.filter_some, Option.filter_some]
    have hiff := @Held.expires_raw _ _ _ _ _ h now _ (hreg t hl)
    by_cases hover : t.record.raw.Over su.ttlSecs now
    · rw [hiff.2 hover, decide_eq_true hover]
      rfl
    · rw [Bool.eq_false_iff.2 (mt hiff.1 hover), decide_eq_false hover]
      rfl

/-- A lookup forgets nothing but what has expired. -/
theorem Drops.shrinks (h : Held su false mm st fs L) {now : UInt32} {idx : Index} {evicts : Prop}
    (hd : Drops now st L idx) (hreg : ∀ k t, L.live k = some t → t.record.hdr.ttl.toNat < 2 ^ 24) :
    L.holdings.Shrinks su.ttlSecs evicts now (L.narrow (L.live.within idx)).holdings where
  le k r hr := by
    obtain ⟨t, ht, rfl⟩ := Option.map_eq_some_iff.1 hr
    rw [Log.holdings, Live.within_le k t ht]
    rfl
  keeps _ k r hr hover := by
    obtain ⟨t, ht, rfl⟩ := Option.map_eq_some_iff.1 hr
    have hexp : st.expires now t.record = false := by
      rw [← Bool.not_eq_true, h.expires_raw (hreg k t ht)]
      exact hover
    have hlive : (L.narrow (L.live.within idx)).live k = some t :=
      (if_pos (hd.keeps k t ht hexp)).trans ht
    rw [Log.holdings, hlive]
    rfl

/-- `exists` drops the entry it does not show. -/
theorem exists_gone {clk : Clock} {key : Buf} (hv : st.valid = true)
    (hkey : key.bytes.length ≤ maxKeyLen) (hno : (st.exists clk key).1 = false) :
    (st.exists clk key).2.indexFind key.bytes = none := by
  rw [Store.exists, if_neg (by rw [hv]; decide), if_neg (Nat.not_lt.2 hkey)] at hno ⊢
  cases hfind : st.indexFind key.bytes with
  | none => exact hfind
  | some e =>
    rw [hfind] at hno
    dsimp only at hno ⊢
    cases hexp : st.isTtlExpired clk.time e.timestamp e.ttl.toNat with
    | true => exact AList.lookup_erase _ _
    | false =>
      rw [hexp] at hno
      cases hno

/-- After an operation the store holds what the operation makes of what it held, but for what has expired
or is evicted. -/
theorem Held.shrinks_next (h : Held su false mm st fs L) {op : Operation} {b : Bool}
    (h' : Held su b (op.next mm) st' fs' L') (hf : op.Follows st fs L st' L')
    (hop : op.restarts = false) (hlim : ∀ clk key data ttl ts priority,
      op = .put clk key data ttl ts priority →
      key.bytes.length ≤ maxKeyLen ∧ data.bytes.length ≤ maxValueLen)
    (htwo : 2 ≤ su.segments.toNat) (hnil : L.live [] = none) (hne : op.puts ≠ some [])
    {now : UInt32} (htime : op.time = some now) {evicts : Prop}
    (hret : ¬evicts → ∀ k, op.Retains st fs st' k)
    (hreg : ∀ k r, op.next (fun k => (L.live k).map Located.record) k = some r →
      r.hdr.ttl.toNat < 2 ^ 24) : Holdings.Shrinks su.ttlSecs evicts now
      (fun k => (op.next (fun k => (L.live k).map Located.record) k).map Record.raw) L'.holdings where
  le k r hr := by
    obtain ⟨t', ht', rfl⟩ := Option.map_eq_some_iff.1 hr
    rw [h.live_next h' hf hop hlim ht']
    rfl
  keeps hev k r hr hover := by
    obtain ⟨rec, hrec, rfl⟩ := Option.map_eq_some_iff.1 hr
    have hcount : st.count = su.segments.toNat := by rw [Store.count, h.segmentCount]
    obtain ⟨t', ht', he⟩ := hf.keeps h.capped (hcount ▸ htwo) hnil hne k rec hrec (fun now' hnow => by
      obtain rfl := Option.some.inj (htime.symm.trans hnow)
      rw [← Bool.not_eq_true, h.expires_raw (hreg k rec hrec)]
      exact hover) (hret hev k)
    rw [Log.holdings, ht', Option.map_some, he]

/-- Without a limit a put evicts nothing. -/
theorem Held.retains_put (h : Held su false mm st fs L) (hmax : su.maxRecs = 0) {clk : Clock}
    {key data : Buf} {ttl ts : UInt32} {priority : UInt8}
    (hlim : key.bytes.length ≤ maxKeyLen ∧ data.bytes.length ≤ maxValueLen)
    (hsmall : ∀ x ∈ Prog.trace posix (st.put clk key data ttl ts priority) fs, su.Small x.2) (k : Key) :
    (Operation.put clk key data ttl ts priority).Retains st fs st' k := by
  have hrotate : ∀ x ∈ Prog.trace posix (st.rotateSegmentIfNeeded clk data.bytes.length) fs,
      su.Small x.2 := by
    intro x hx
    refine hsmall x ?_
    rw [Store.put, if_neg (by rw [h.rep.valid]; decide), if_neg (Nat.not_lt.2 hlim.1),
      if_neg (Nat.not_lt.2 hlim.2), Prog.trace_bind]
    exact List.mem_append_left _ hx
  obtain ⟨L₁, -, hc, -⟩ := Env.exec_of_wp (wp_rotate_ready h.fits (h.ready rfl)) hrotate
  intro hk
  have hmax' (seg off : Nat) : (Store.indexInsert
      (Prog.exec posix (st.rotateSegmentIfNeeded clk data.bytes.length) fs).1.2 key.bytes seg off ts
      ttl.toNat priority).policyMaxRecs = 0 := hc.maxRecs.trans (h.maxRecs.trans hmax)
  rwa [pruneIndexToMaxRecs_eq (.inl (hmax' _ _))]

/-- A change of records is one of raw records. -/
theorem update_raw {m : Key → Option Record} {k : Key} {o : Option Record} :
    (fun k' => (Function.update m k o k').map Record.raw)
      = Function.update (fun k' => (m k').map Record.raw) k (o.map Record.raw) :=
  Function.comp_update (Option.map Record.raw) m k o

/-- What is held, by the live records. -/
theorem Log.holdings_eq : L.holdings = fun k => ((L.live k).map Located.record).map Record.raw := by
  funext k
  rw [Option.map_map]
  rfl

/-- A put of the tiered store. -/
theorem FileHolds.put (htwo : 2 ≤ su.segments.toNat) {s : Store × FileSystem} {m : Holdings}
    (hm : FileHolds su s m) {e : Moment} {k v : Bytes} {ttl ts : UInt32} {priority : UInt8}
    (hfine : (fileBacking su).fine e (.put k v ttl ts priority) s) :
    let y : (Bool × Store) × FileSystem :=
      Prog.exec posix (fileCall s.1 e (.put k v ttl ts priority)) s.2
    (y.1.1 = true ↔ k.length ≤ maxKeyLen ∧ v.length ≤ maxValueLen) ∧
      ∃ m', FileHolds su (y.1.2, y.2) m' ∧ Holdings.Shrinks su.ttlSecs (su.maxRecs ≠ 0) e.clock.time
        (if y.1.1 = true then Function.update m k (some ⟨v, ttl, ts⟩) else m) m' := by
  obtain ⟨mm, L, h, hreg, rfl⟩ := hm
  obtain ⟨hsmall, hne, hk, hv, httl⟩ := hfine
  have hkey : (Buf.at k).asKey = .at k := Buf.asKey_eq hk
  have hval : (Buf.at v).asValue = .at v := Buf.asValue_eq hv
  rw [Setup.SmallCall, fileCall, hkey, hval] at hsmall
  rw [fileCall, hkey, hval]
  intro y
  by_cases hlim : (Buf.at k).bytes.length ≤ maxKeyLen ∧ (Buf.at v).bytes.length ≤ maxValueLen
  · obtain ⟨hok, L', h', hf⟩ := Env.exec_of_wp (h.wp_put hlim) hsmall
    have hok : y.1.1 = true := hok
    have hnext (m : Key → Option Record) :
        (Operation.put e.clock (.at k) (.at v) ttl ts priority).next m
          = Function.update m k (some (putRecord (.at k) (.at v) ttl ts priority hlim.1 hlim.2)) :=
      dif_pos hlim
    have hnil : L.live [] = none :=
      Option.eq_none_iff_forall_not_mem.2 fun t hl => (hreg _ t hl).1 rfl
    have hputs : (Operation.put e.clock (.at k) (.at v) ttl ts priority).puts ≠ some [] :=
      fun he => hne (Option.some.inj he)
    have hlims : ∀ clk key data ttl' ts' priority',
        Operation.put e.clock (.at k) (.at v) ttl ts priority = .put clk key data ttl' ts' priority' →
        key.bytes.length ≤ maxKeyLen ∧ data.bytes.length ≤ maxValueLen := by
      rintro _ _ _ _ _ _ ⟨⟩
      exact hlim
    have hcases (k' : Key) (r : Record) (hr : (Operation.put e.clock (.at k) (.at v) ttl ts priority).next
        (fun k => (L.live k).map Located.record) k' = some r) :
        k' ≠ [] ∧ k'.length ≤ maxKeyLen ∧ r.hdr.ttl.toNat < 2 ^ 24 := by
      rw [hnext] at hr
      by_cases hk' : k' = k
      · rw [hk', Function.update_self] at hr
        obtain rfl := Option.some.inj hr
        exact ⟨hk'.symm ▸ hne, hk'.symm ▸ hlim.1, httl⟩
      · rw [Function.update_of_ne hk'] at hr
        obtain ⟨t, ht, rfl⟩ := Option.map_eq_some_iff.1 hr
        exact hreg k' t ht
    refine ⟨iff_of_true hok hlim, _, ⟨_, L', h', fun k' t' ht' => ?_, rfl⟩, ?_⟩
    · exact hcases k' _ (h.live_next h' hf rfl hlims ht')
    · have hshrinks : Holdings.Shrinks _ (su.maxRecs ≠ 0) _ _ _ :=
        h.shrinks_next h' hf rfl hlims htwo hnil hputs rfl (fun hno k' => h.retains_put (not_not.1 hno) hlim hsmall k')
        fun k' r hr => (hcases k' r hr).2.2
      rw [hnext, update_raw, ← Log.holdings_eq] at hshrinks
      rw [if_pos hok]
      exact hshrinks
  · have hfail := @Rep.put_beyond _ _ _ h.rep e.clock (.at k) (.at v) ttl ts priority hlim
    have hy : y = ((false, s.1), s.2) := congrArg (fun p => Prog.exec posix p s.2) hfail
    rw [hy]
    exact ⟨iff_of_false Bool.false_ne_true hlim, _, ⟨mm, L, h, hreg, rfl⟩, .refl⟩

/-- A lookup that found the records leaves what has not expired. -/
theorem FileHolds.drops {s : Store × FileSystem} (h : Held su false mm s.1 s.2 L)
    (hreg : ∀ k t, L.live k = some t → k ≠ [] ∧ k.length ≤ maxKeyLen ∧ t.record.hdr.ttl.toNat < 2 ^ 24)
    {now : UInt32} {idx : Index} (hd : Drops now s.1 L idx) :
    FileHolds su ({ s.1 with index := idx }, s.2) (L.narrow (L.live.within idx)).holdings :=
  ⟨mm, _, h.drops hd, fun k t ht => hreg k t (Live.within_le k t ht), rfl⟩

/-- A key that is too long is not held. -/
theorem FileHolds.none_of_long (hreg : ∀ k t, L.live k = some t →
    k ≠ [] ∧ k.length ≤ maxKeyLen ∧ t.record.hdr.ttl.toNat < 2 ^ 24) {k : Key}
    (hk : ¬k.length ≤ maxKeyLen) : L.holdings k = none := by
  rw [Log.holdings]
  cases hl : L.live k with
  | none => rfl
  | some t => exact absurd (hreg k t hl).2.1 hk

/-- A lookup of the tiered store. -/
theorem FileHolds.get {s : Store × FileSystem} {m : Holdings} (hm : FileHolds su s m) {e : Moment}
    {k : Bytes} (hk : k.length < 2 ^ 8) :
    let y : (Option Bytes × Store) × FileSystem := Prog.exec posix (fileCall s.1 e (.get k)) s.2
    y.1.1 = (m.shown su.ttlSecs e.clock.time k).map RawRecord.value ∧
      ∃ m', FileHolds su (y.1.2, y.2) m' ∧ m.Shrinks su.ttlSecs (su.maxRecs ≠ 0) e.clock.time m' := by
  obtain ⟨mm, L, h, hreg, rfl⟩ := hm
  have hkey : (Buf.at k).asKey = .at k := Buf.asKey_eq hk
  rw [fileCall, hkey]
  refine @Env.plain_exec _ _ (fun (x : Option Value × Store) fs' =>
    x.1 = (L.holdings.shown su.ttlSecs e.clock.time k).map RawRecord.value ∧ ∃ m', FileHolds su (x.2, fs') m' ∧
      L.holdings.Shrinks su.ttlSecs (su.maxRecs ≠ 0) e.clock.time m') s.2 ?_
  by_cases hlen : (Buf.at k).bytes.length ≤ maxKeyLen
  · refine wp_getValue (Env.plain_reads s.2) h.rep hlen fun idx hd => ⟨?_, _, .drops h hreg hd, ?_⟩
    · exact h.visible_eq fun t ht => (hreg k t ht).2.2
    · exact hd.shrinks h fun k t ht => (hreg k t ht).2.2
  · rw [getValue_of_long h.rep.valid hlen]
    refine Env.wp_ret ⟨?_, _, ⟨mm, L, h, hreg, rfl⟩, .refl⟩
    have hnone : L.holdings k = none := FileHolds.none_of_long hreg hlen
    rw [Holdings.shown, hnone]
    rfl

/-- `exists` of the tiered store. -/
theorem FileHolds.exists {s : Store × FileSystem} {m : Holdings} (hm : FileHolds su s m) {e : Moment}
    {k : Bytes} (hk : k.length < 2 ^ 8) :
    let y := s.1.exists e.clock (Buf.at k).asKey
    y.1 = (m.shown su.ttlSecs e.clock.time k).isSome ∧
      ∃ m', FileHolds su (y.2, s.2) m' ∧ m.Shrinks su.ttlSecs (su.maxRecs ≠ 0) e.clock.time m' ∧
        (y.1 = false → m' k = none) := by
  obtain ⟨mm, L, h, hreg, rfl⟩ := hm
  have hkey : (Buf.at k).asKey = .at k := Buf.asKey_eq hk
  rw [hkey]
  by_cases hlen : (Buf.at k).bytes.length ≤ maxKeyLen
  · obtain ⟨idx, hd, hex⟩ := exists_eq h.rep e.clock hlen
    intro y
    have hy : y = _ := hex
    have hgone := @exists_gone _ e.clock _ h.rep.valid hlen
    rw [hex] at hgone
    rw [hy]
    refine ⟨?_, _, .drops h hreg hd, hd.shrinks h fun k t ht => (hreg k t ht).2.2, fun hno => ?_⟩
    · rw [h.visible_eq fun t ht => (hreg _ t ht).2.2, Option.isSome_map]
      rfl
    · have hnone : idx.lookup k = none := hgone hno
      change ((L.live.within idx) k).map _ = none
      rw [Live.within, if_neg (by rw [hnone]; exact Bool.false_ne_true)]
      rfl
  · intro y
    have hy : y = (false, s.1) := @exists_of_long _ h.rep.valid e.clock (.at k) hlen
    have hnone : L.holdings k = none := FileHolds.none_of_long hreg hlen
    rw [hy]
    refine ⟨?_, _, ⟨mm, L, h, hreg, rfl⟩, .refl, fun _ => hnone⟩
    rw [Holdings.shown, hnone]
    rfl

/-- A removal of the tiered store. -/
theorem FileHolds.remove (htwo : 2 ≤ su.segments.toNat) {s : Store × FileSystem} {m : Holdings}
    (hm : FileHolds su s m) {e : Moment} {k : Bytes} (hk : k.length < 2 ^ 8)
    (hsmall : su.SmallCall e (.remove k) s) :
    let y := Prog.exec posix (fileCall s.1 e (.remove k)) s.2
    ∃ m', FileHolds su (y.1.2, y.2) m' ∧ Holdings.Shrinks su.ttlSecs (su.maxRecs ≠ 0) e.clock.time
      (Function.update m k none) m' := by
  obtain ⟨mm, L, h, hreg, rfl⟩ := hm
  have hkey : (Buf.at k).asKey = .at k := Buf.asKey_eq hk
  rw [Setup.SmallCall, fileCall, hkey] at hsmall
  rw [fileCall, hkey]
  intro y
  by_cases hlen : (Buf.at k).bytes.length ≤ maxKeyLen
  · obtain ⟨L', h', hf⟩ := Env.exec_of_wp (h.wp_remove hlen) hsmall
    have hnext (m : Key → Option Record) :
        (Operation.remove e.clock (.at k) e.junkTtl e.junkPriority).next m
          = Function.update m k none := if_pos hlen
    have hnil : L.live [] = none :=
      Option.eq_none_iff_forall_not_mem.2 fun t hl => (hreg _ t hl).1 rfl
    have hcases (k' : Key) (r : Record) (hr : (Operation.remove e.clock (.at k) e.junkTtl
        e.junkPriority).next (fun k => (L.live k).map Located.record) k' = some r) :
        k' ≠ [] ∧ k'.length ≤ maxKeyLen ∧ r.hdr.ttl.toNat < 2 ^ 24 := by
      rw [hnext] at hr
      by_cases hk' : k' = k
      · rw [hk', Function.update_self] at hr
        cases hr
      · rw [Function.update_of_ne hk'] at hr
        obtain ⟨t, ht, rfl⟩ := Option.map_eq_some_iff.1 hr
        exact hreg k' t ht
    refine ⟨_, ⟨_, L', h', fun k' t' ht' => ?_, rfl⟩, ?_⟩
    · exact hcases k' _ (h.live_next h' hf rfl nofun ht')
    · have hshrinks : Holdings.Shrinks _ (su.maxRecs ≠ 0) _ _ _ :=
        h.shrinks_next h' hf rfl nofun htwo hnil nofun rfl (fun _ _ => trivial) fun k' r hr => (hcases k' r hr).2.2
      rw [hnext, update_raw, ← Log.holdings_eq] at hshrinks
      exact hshrinks
  · have hy : y = ((false, s.1), s.2) := congrArg (fun p => Prog.exec posix p s.2)
      (@Rep.remove_beyond _ _ _ h.rep e.clock (.at k) e.junkTtl e.junkPriority hlen)
    rw [hy]
    refine ⟨_, ⟨mm, L, h, hreg, rfl⟩, ?_⟩
    have hnone : L.holdings k = none := FileHolds.none_of_long hreg hlen
    rw [← hnone, Function.update_eq_self]
    exact .refl

/-- `size` of the tiered store. -/
theorem FileHolds.size {s : Store × FileSystem} {m : Holdings} (hm : FileHolds su s m) :
    ∃ ks : List Bytes, ks.Nodup ∧ (∀ k, k ∈ ks ↔ (m k).isSome) ∧ s.1.size = ks.length := by
  obtain ⟨mm, L, h, -, rfl⟩ := hm
  obtain ⟨ks, hnodup, hmem, hsize⟩ := size_eq h.rep
  refine ⟨ks, hnodup, fun k => ?_, hsize⟩
  rw [hmem, Log.view, Log.holdings, Option.isSome_map, Option.isSome_map]

/-- The iterator of the tiered store. -/
theorem FileHolds.iterate {s : Store × FileSystem} {m : Holdings} (hm : FileHolds su s m) {e : Moment} :
    let y : (List (Bytes × Bytes) × Store) × FileSystem :=
      Prog.exec posix (fileCall s.1 e .iterate) s.2
    FileHolds su (y.1.2, y.2) m ∧ (y.1.1.map Prod.fst).Nodup ∧
      ∀ k v, (k, v) ∈ y.1.1 ↔ (m k).map RawRecord.value = some v := by
  obtain ⟨mm, L, h, hreg, rfl⟩ := hm
  refine @Env.plain_exec _ _ (fun (x : List (Bytes × Bytes) × Store) fs' =>
    FileHolds su (x.2, fs') L.holdings ∧ (x.1.map Prod.fst).Nodup ∧
      ∀ k v, (k, v) ∈ x.1 ↔ (L.holdings k).map RawRecord.value = some v) s.2 ?_
  refine Prog.wp_bind.2 (wp_iterate (Env.plain_reads s.2) h.rep fun es hnodup hmem hview => ?_)
  have hmap (k : Key) : (L.holdings k).map RawRecord.value = L.view k := by
    rw [Log.holdings, Log.view, Option.map_map]
    rfl
  refine Env.wp_ret ⟨⟨mm, L, h, hreg, rfl⟩, ?_, fun k v => ?_⟩
  · rw [List.map_map]
    exact hnodup
  · rw [hmap, List.mem_map]
    constructor
    · rintro ⟨entry, hentry, he⟩
      obtain ⟨rfl, rfl⟩ := Prod.mk.inj he
      exact hview entry hentry
    · intro hv
      obtain ⟨entry, hentry, rfl⟩ := List.mem_map.1 ((hmem k).2 (by rw [hv]; rfl))
      exact ⟨entry, hentry, Prod.ext rfl (Option.some.inj ((hview entry hentry).symm.trans hv))⟩

/-- `clear` of the tiered store. -/
theorem FileHolds.clear {s : Store × FileSystem} {m : Holdings} (hm : FileHolds su s m) {e : Moment}
    (hsmall : su.SmallCall e .clear s) :
    let y := Prog.exec posix (fileCall s.1 e .clear) s.2
    FileHolds su (y.1.2, y.2) fun _ => none := by
  obtain ⟨mm, L, h, hreg, rfl⟩ := hm
  refine @Env.exec_of_wp su.env _ _ (fun (x : Unit × Store) fs' => FileHolds su (x.2, fs') fun _ => none)
    s.2 ?_ hsmall
  refine Env.wp_seq (@Held.wp_perform _ _ _ _ _ _ h .clear nofun) fun st' fs' ⟨L', h', _⟩ => Env.wp_ret ?_
  have hnone (k : Key) : L'.live k = none := by
    cases hk : L'.live k with
    | none => rfl
    | some t => cases h'.records k t (h'.rep.disk.ok.sub k t hk)
  refine ⟨_, L', h', fun k t ht => ?_, funext fun k => ?_⟩
  · cases (hnone k).symm.trans ht
  · rw [Log.holdings, hnone]
    rfl

/-- **A file store is lawful**, as long as nothing goes wrong: it forgets what has expired, and evicts only
if it has a limit. -/
theorem fileBacking_lawful (htwo : 2 ≤ su.segments.toNat) (e : Moment) :
    ((fileBacking su).rel e).Lawful su.ttlSecs (su.maxRecs ≠ 0)
      (fun k v => k.length ≤ maxKeyLen ∧ v.length ≤ maxValueLen) e.clock.time (FileHolds su) where
  isValid := by
    rintro s m r s' hm ⟨-, hr⟩
    obtain ⟨rfl, rfl⟩ := Prod.mk.inj hr
    obtain ⟨mm, L, h, hrest⟩ := hm
    exact ⟨h.rep.valid, mm, L, h, hrest⟩
  put := by
    rintro s m k v ttl ts priority r s' hm ⟨hfine, hr⟩
    obtain ⟨rfl, rfl⟩ := Prod.mk.inj hr
    exact hm.put htwo hfine
  get := by
    rintro s m k r s' hm ⟨⟨-, hk⟩, hr⟩
    obtain ⟨rfl, rfl⟩ := Prod.mk.inj hr
    exact hm.get hk
  «exists» := by
    rintro s m k r s' hm ⟨⟨-, hk⟩, hr⟩
    obtain ⟨rfl, rfl⟩ := Prod.mk.inj hr
    exact hm.exists hk
  remove := by
    rintro s m k r s' hm ⟨⟨hsmall, hk⟩, hr⟩
    obtain ⟨rfl, rfl⟩ := Prod.mk.inj hr
    exact hm.remove htwo hk hsmall
  size := by
    rintro s m r s' hm ⟨-, hr⟩
    obtain ⟨rfl, rfl⟩ := Prod.mk.inj hr
    exact ⟨hm, hm.size⟩
  iterate := by
    rintro s m r s' hm ⟨-, hr⟩
    obtain ⟨rfl, rfl⟩ := Prod.mk.inj hr
    exact hm.iterate
  clear := by
    rintro s m r s' hm ⟨⟨hsmall, -⟩, hr⟩
    obtain ⟨rfl, rfl⟩ := Prod.mk.inj hr
    exact hm.clear hsmall

/-- A file store without a limit forgets only what has expired. -/
theorem fileBacking_keeps (htwo : 2 ≤ su.segments.toNat) (hmax : su.maxRecs = 0) (e : Moment) :
    ((fileBacking su).rel e).Lawful su.ttlSecs False
      (fun k v => k.length ≤ maxKeyLen ∧ v.length ≤ maxValueLen) e.clock.time (FileHolds su) := by
  have hlawful := @fileBacking_lawful su htwo e
  have hno : (su.maxRecs ≠ 0) = False := eq_false (not_not.2 hmax)
  rwa [hno] at hlawful

end file

/-! ## A sample

A tiered store with one-byte keys and values over a file store, for the samples of the modules that
follow. -/

/-- Bytes as keys and values, one slot and two buckets. -/
def byteTyped : Typed UInt8 UInt8 where
  cacheSize := 1
  hashBuckets := 2
  keyHash := UInt8.toNat
  keyCodec := ⟨fun b => [b], List.head?⟩
  valueCodec := ⟨fun b => [b], List.head?⟩

/-- Its codecs do nothing but wrap a byte. -/
theorem byteTyped_roundTrips : Tiered.RoundTrips byteTyped := ⟨fun _ => rfl, fun _ => rfl⟩

/-- At this time. -/
def Moment.at (now : UInt32) : Moment := ⟨⟨now, 0, 0⟩, 0, 0⟩

/-- The sample file store, opened. -/
def sampleOpened : Store × FileSystem := Prog.exec posix (sampleSetup.start .recent) .empty

end MicroStore
