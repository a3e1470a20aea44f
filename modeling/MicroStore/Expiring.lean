import MicroStore.Evicting

/-!
# Time to live

The index keeps 24 bits of a record's TTL.  A record is to be seen exactly as long as the TTL cut to 24
bits, or the policy where that is zero, has not run out (`Tracked.lookup`), so what the full TTL says is
right exactly where it agrees with the cut one (`ttl_respected_iff`).

## What is here

* `Expired` — a TTL has run out.  A record's own TTL counts, or the policy's if it has none; a record
  from the future has not expired.
* `RespectsTtl` — `get` and `exists` fail at a time exactly when the full TTL has run out.
* `Tracked` — one record followed through a run, from the put that was accepted to the lookup: it was
  the last put of its key, and it is live unless it has expired.
* `Tracked.step`, `Tracked.run` — an operation keeps it in sight, and so does a run.
* `ttl_respected_iff`, with a sample on either side of the condition (`ttl_respected_iff_sample`,
  `ttl_outlived`).

## What a run must not do

The record is lost for other reasons than its TTL when its key is put again or removed, when the store
is cleared (`Operation.Leaves`), when it is evicted (`Setup.Spares`), or when the clock goes back
(`Operation.Ordered`).  These are conditions of the statement, since nothing is said of the TTL there.
-/

set_option autoImplicit false

namespace MicroStore

/-- The TTL of a record, or the policy if it has none, has run out. -/
def Expired (ttl policy ts now : UInt32) : Prop :=
  let effective := if ttl ≠ 0 then ttl else policy
  effective ≠ 0 ∧ ts < now ∧ effective ≤ now - ts

instance (ttl policy ts now : UInt32) : Decidable (Expired ttl policy ts now) :=
  inferInstanceAs (Decidable (_ ∧ _ ∧ _))

/-- A lookup fails exactly when the record has expired. -/
def RespectsTtl (su : Setup) (s : Store × FileSystem) (key : Buf) (ttl ts : UInt32) (clk : Clock) :
    Prop :=
  ((Prog.exec posix (s.1.getValue clk key) s.2).1.1 = none ↔ Expired ttl su.ttlSecs ts clk.time) ∧
    ((s.1.exists clk key).1 = false ↔ Expired ttl su.ttlSecs ts clk.time)

namespace Operation

/-- The clock does not go back. -/
def Ordered : UInt32 → List Operation → Prop
  | _, [] => True
  | now, op :: ops => (∀ t ∈ op.time, now ≤ t) ∧ Ordered (op.time.getD now) ops

instance decidableOrdered (ops : List Operation) (now : UInt32) : Decidable (Ordered now ops) := by
  induction ops generalizing now with
  | nil => exact .isTrue trivial
  | cons op ops ih =>
    have hall : op.time.all (now ≤ ·) = true ↔ ∀ t ∈ op.time, now ≤ t := by
      simp [Option.all_eq_true]
    exact @instDecidableAnd _ _ (decidable_of_iff _ hall) (ih _)

/-- What the clock says last. -/
def lastTime (now : UInt32) (ops : List Operation) : UInt32 :=
  ops.foldl (fun now op => op.time.getD now) now

/-- The operation neither puts nor removes the key. -/
def Leaves (k : Key) : Operation → Prop
  | .put _ key _ _ _ _ => key.bytes ≠ k
  | .remove _ key _ _ => key.bytes ≠ k
  | .clear => False
  | .get .. | .exists .. | .size | .iterate | .compact _ | .restart _ => True

instance (k : Key) (op : Operation) : Decidable (op.Leaves k) := by
  cases op <;> rw [Leaves] <;> infer_instance

/-- The operation does not evict the key: not behind a put, and not at a restart, where the key is in
the index file but not in the index afterwards. -/
def Spares (su : Setup) (s : Store × FileSystem) (k : Key) : Operation → Prop
  | .restart order =>
    k ∈ (Prog.exec posix (Store.loadIndex { s.1 with index := ∅ }) s.2).1.2.index.keys →
      k ∈ (Prog.exec posix (su.perform s.1 (.restart order)) s.2).1.index.keys
  | op => op.Retains s.1 s.2 (Prog.exec posix (su.perform s.1 op) s.2).1 k

end Operation

instance (su : Setup) (s : Store × FileSystem) (k : Key) (op : Operation) :
    Decidable (op.Spares su s k) := by
  cases op <;> dsimp only [Operation.Spares, Operation.Retains] <;> infer_instance

/-- No operation of the run evicts the key. -/
def Setup.Spares (su : Setup) (k : Key) : List Operation → Store × FileSystem → Prop
  | [], _ => True
  | op :: ops, s => op.Spares su s k ∧ su.Spares k ops (Prog.exec posix (su.perform s.1 op) s.2)

instance decidableSpares (su : Setup) (k : Key) (ops : List Operation) (s : Store × FileSystem) :
    Decidable (su.Spares k ops s) := by
  induction ops generalizing s with
  | nil => exact .isTrue trivial
  | cons op ops ih => exact @instDecidableAnd _ _ _ (ih _)

section expiring

/-- What has expired stays so. -/
theorem Expired.mono {ttl policy ts now now' : UInt32} (h : Expired ttl policy ts now)
    (hle : now ≤ now') : Expired ttl policy ts now' := by
  obtain ⟨hne, hlt, hdur⟩ := h
  have hlt' : ts < now' := UInt32.lt_of_lt_of_le hlt hle
  refine ⟨hne, hlt', UInt32.le_trans hdur ?_⟩
  rw [UInt32.le_iff_toNat_le, UInt32.toNat_sub_of_le _ _ (UInt32.le_of_lt hlt),
    UInt32.toNat_sub_of_le _ _ (UInt32.le_of_lt hlt')]
  exact Nat.sub_le_sub_right (UInt32.le_iff_toNat_le.1 hle) _

/-- `is_ttl_expired_` is this notion of expiry. -/
theorem isTtlExpired_iff {st : Store} {now ts ttl : UInt32} :
    st.isTtlExpired now ts ttl.toNat = true ↔ Expired ttl st.policyTtlSecs ts now := by
  rw [Store.isTtlExpired, decide_eq_true_eq, Expired]
  have hpos : 0 < ttl.toNat ↔ ttl ≠ 0 := by
    rw [Nat.pos_iff_ne_zero, ne_eq, ne_eq, ← UInt32.toNat_inj]
    rfl
  simp only [hpos]
  split
  · rw [UInt32.le_iff_toNat_le, hpos]
  · rw [UInt32.le_iff_toNat_le, Nat.pos_iff_ne_zero, ne_eq, ne_eq, ← UInt32.toNat_inj]
    rfl

variable {su : Setup} {b : Bool} {m : Key → Option Record} {st : Store} {fs : FileSystem} {L : Log}

/-- Whether a record has expired, as the store sees it. -/
theorem Held.expires_iff (h : Held su b m st fs L) {now : UInt32} {r : Record} :
    st.expires now r = true ↔
      Expired (r.hdr.ttl % 16777216) su.ttlSecs r.hdr.timestamp now := by
  have hcut : (UInt24.ofNat r.hdr.ttl.toNat).toNat = (r.hdr.ttl % 16777216).toNat := by
    rw [UInt24.toNat_ofNat_mod, UInt32.toNat_mod]
    rfl
  rw [Store.expires, hcut, isTtlExpired_iff, h.ttl]

/-- What does not concern the key leaves its last put. -/
theorem Operation.next_eq {op : Operation} {k : Key} (h : op.Leaves k) (m : Key → Option Record) :
    op.next m k = m k := by
  cases op with
  | put clk key data ttl ts priority =>
    rw [Operation.next]
    split
    · exact Function.update_of_ne (Ne.symm h) ..
    · rfl
  | remove clk key junkTtl junkPriority =>
    rw [Operation.next]
    split
    · exact Function.update_of_ne (Ne.symm h) ..
    · rfl
  | clear => exact h.elim
  | get | «exists» | size | iterate | compact | restart => rfl

/-- Without a put of the empty key there is no record of it. -/
theorem Operation.next_nil {op : Operation} (h : op.puts ≠ some []) {m : Key → Option Record}
    (hm : m [] = none) : op.next m [] = none := by
  cases op with
  | put clk key data ttl ts priority =>
    have hne : key.bytes ≠ [] := fun he => h (congrArg some he)
    rw [Operation.next]
    split
    · rw [Function.update_of_ne (Ne.symm hne), hm]
    · exact hm
  | remove clk key junkTtl junkPriority =>
    rw [Operation.next]
    split
    · by_cases hk : key.bytes = []
      · rw [hk, Function.update_self]
      · rw [Function.update_of_ne (Ne.symm hk), hm]
    · exact hm
  | clear => rfl
  | get | «exists» | size | iterate | compact | restart => exact hm

/-- Without puts of an empty key there is none. -/
theorem Operation.records_nil {ops : List Operation} (h : ∀ op ∈ ops, op.puts ≠ some [])
    {m : Key → Option Record} (hm : m [] = none) : ops.foldl Operation.next m [] = none := by
  induction ops generalizing m with
  | nil => exact hm
  | cons op ops ih =>
    exact ih (fun op' h' => h op' (List.mem_cons_of_mem _ h')) (next_nil (h op List.mem_cons_self) hm)

/-- What the invariant says about a record: it is to be seen as long as it has not expired. -/
structure Tracked (su : Setup) (b : Bool) (m : Key → Option Record) (st : Store) (fs : FileSystem)
    (L : Log) (k : Key) (r : Record) (now : UInt32) : Prop where
  /-- The store is as a run leaves it. -/
  held : Held su b m st fs L
  /-- The record is the last put of its key. -/
  last : m k = some r
  /-- No put has an empty key. -/
  nil : m [] = none
  /-- It is live unless it has expired. -/
  live : st.expires now r = false → (L.live k).isSome

/-- What is live at the key is the record. -/
theorem Tracked.record {k : Key} {r : Record} {now : UInt32} (h : Tracked su b m st fs L k r now)
    {t : Located} (ht : L.live k = some t) : t.record = r := by
  have hm := h.held.records k t (h.held.rep.disk.ok.sub k t ht)
  exact Option.some.inj (hm.symm.trans h.last)

/-- When the files of a held store are closed, no segment file has reached `2 ^ 24` bytes. -/
theorem Held.small_of_restart (h : Held su b m st fs L) {order : IterationOrder}
    (hsmall : ∀ x ∈ Prog.trace posix (su.perform st (.restart order)) fs, su.Small x.2) :
    su.Small fs := by
  refine Env.exec_of_wp (E := su.env) (Q := fun _ _ => su.Small fs) ?_ hsmall
  obtain ⟨x, hx, -⟩ := h.rep.indexFile
  have htriv {β : Type} (p : FsM β) (fs : FileSystem) : su.env.wp p (fun _ _ => True) fs :=
    Env.wp_trivial (fun _ _ => trivial) p fs
  rw [Setup.perform, Store.close, flushBuffer_nil h.rep.buf]
  refine Prog.wp_bind.2 (Env.wp_pure_bind ?_)
  dsimp only
  rw [hx]
  refine Prog.wp_bind.2 (Env.wp_rely trivial fun hrely => ?_)
  exact Prog.wp_mono (htriv _ _) fun _ _ _ => Prog.wp_mono (htriv _ _) fun _ _ _ =>
    Prog.wp_mono (htriv _ _) fun _ _ _ => hrely

/-- What a restart of a held store loads. -/
theorem Held.loaded (h : Held su b m st fs L) (hsmall : su.Small fs) :
    (Prog.exec posix (Store.loadIndex { st with index := ∅ }) fs).1.2.index.Shows L.saved := by
  have hd := h.rep.disk
  have hlen : ∀ s g, L.segs s = some g → g.bytes.length < 2 ^ 24 := by
    refine hd.files.length_lt ?_
    rw [h.pre, Store.count, h.segmentCount]
    exact hsmall
  refine @Env.plain_exec _ _ (fun (x : Bool × Store) _ => x.2.index.Shows L.saved) fs ?_
  exact wp_loadIndex (Env.plain_reads fs) (by exact hd) (fun _ => hlen)
    (by rw [h.indexTail]; exact readEntry_nil) hd.ok.entries

/-- One step keeps track of the record. -/
theorem Tracked.step {k : Key} {r : Record} {now : UInt32} (h : Tracked su b m st fs L k r now)
    (htwo : 2 ≤ su.segments.toNat) {op : Operation} (hb : op.appends = true → b = false)
    (hsmall : ∀ x ∈ Prog.trace posix (su.perform st op) fs, su.Small x.2) (hleaves : op.Leaves k)
    (hne : op.puts ≠ some []) (htime : ∀ t ∈ op.time, now ≤ t) (hspares : op.Spares su (st, fs) k) :
    ∃ L', Tracked su (op.detaches b) (op.next m) (Prog.exec posix (su.perform st op) fs).1
      (Prog.exec posix (su.perform st op) fs).2 L' k r (op.time.getD now) := by
  obtain ⟨L', h', hf⟩ := Env.exec_of_wp (h.held.wp_perform hb) hsmall
  refine ⟨L', h', (Operation.next_eq hleaves m).trans h.last, Operation.next_nil hne h.nil,
    fun hexp => ?_⟩
  have hcount : st.count = su.segments.toNat := by rw [Store.count, h.held.segmentCount]
  -- the record had not expired before, so it was there
  have hexp₁ : st.expires (op.time.getD now) r = false := by
    rw [← Bool.not_eq_true, h'.expires_iff] at hexp
    rwa [← Bool.not_eq_true, h.held.expires_iff]
  have hexp₀ : st.expires now r = false := by
    rw [← Bool.not_eq_true, h.held.expires_iff] at hexp₁ ⊢
    refine fun he => hexp₁ (he.mono ?_)
    cases ht : op.time with
    | none => exact UInt32.le_refl _
    | some t => exact htime t ht
  obtain ⟨t, ht⟩ := Option.isSome_iff_exists.1 (h.live hexp₀)
  have hnil : L.live [] = none := h.held.live_none h.nil
  have hretains : op.Retains st fs (Prog.exec posix (su.perform st op) fs).1 k := by
    cases op with
    | restart order =>
      have hload := h.held.loaded (h.held.small_of_restart hsmall) k
      rw [h.held.rep.disk.ok.sub k t ht] at hload
      have hmem : k ∈ (Prog.exec posix (Store.loadIndex { st with index := ∅ }) fs).1.2.index.keys := by
        rw [← AList.mem_keys, ← AList.lookup_isSome, hload]
        rfl
      exact AList.lookup_isSome.2 (AList.mem_keys.1 (hspares hmem))
    | put | get | «exists» | remove | size | iterate | clear | compact => exact hspares
  obtain ⟨t', ht', -⟩ := hf.keeps h.held.capped (hcount ▸ htwo) hnil hne k r
    (by rw [Operation.next_eq hleaves, ht, Option.map_some, h.record ht])
    (fun now' hnow => by rwa [hnow] at hexp₁) hretains
  rw [ht']
  rfl

/-- A run keeps track of the record. -/
theorem Tracked.run {k : Key} {r : Record} {now : UInt32} {ops : List Operation}
    (h : Tracked su b m st fs L k r now) (htwo : 2 ≤ su.segments.toNat)
    (hsmall : su.SmallRun ops (st, fs)) (hord : Operation.Orderly b ops)
    (hleaves : ∀ op ∈ ops, op.Leaves k) (hne : ∀ op ∈ ops, op.puts ≠ some [])
    (htimes : Operation.Ordered now ops) (hspares : su.Spares k ops (st, fs)) :
    ∃ b' m' L', Tracked su b' m' (su.run ops (st, fs)).1 (su.run ops (st, fs)).2 L' k r
      (Operation.lastTime now ops) := by
  induction ops generalizing b m st fs L now with
  | nil => exact ⟨b, m, L, h⟩
  | cons op ops ih =>
    obtain ⟨L₁, h₁⟩ := h.step htwo hord.1 hsmall.1 (hleaves op List.mem_cons_self)
      (hne op List.mem_cons_self) htimes.1 hspares.1
    exact ih h₁ hsmall.2 hord.2 (fun op' h' => hleaves op' (List.mem_cons_of_mem _ h'))
      (fun op' h' => hne op' (List.mem_cons_of_mem _ h')) htimes.2 hspares.2

/-- A record is tracked from its put on. -/
theorem Held.tracked_put (h : Held su false m st fs L) (hnil : m [] = none)
    (htwo : 2 ≤ su.segments.toNat) {clk : Clock} {key data : Buf} {ttl ts : UInt32} {priority : UInt8}
    (hkey : key.bytes.length ≤ maxKeyLen) (hdata : data.bytes.length ≤ maxValueLen)
    (hne : key.bytes ≠ [])
    (hsmall : ∀ x ∈ Prog.trace posix (su.perform st (.put clk key data ttl ts priority)) fs,
      su.Small x.2)
    (hspares : (Operation.put clk key data ttl ts priority).Spares su (st, fs) key.bytes) :
    ∃ m' L', Tracked su false m'
      (Prog.exec posix (su.perform st (.put clk key data ttl ts priority)) fs).1
      (Prog.exec posix (su.perform st (.put clk key data ttl ts priority)) fs).2 L' key.bytes
      (putRecord key data ttl ts priority hkey hdata) clk.time := by
  obtain ⟨L', h', hf⟩ := Env.exec_of_wp (h.wp_perform fun _ => rfl) hsmall
  have hnext (m : Key → Option Record) : (Operation.put clk key data ttl ts priority).next m
      = Function.update m key.bytes (some (putRecord key data ttl ts priority hkey hdata)) := by
    rw [Operation.next, dif_pos ⟨hkey, hdata⟩]
  have hput : (Operation.put clk key data ttl ts priority).puts ≠ some [] :=
    fun he => hne (Option.some.inj he)
  have hcount : st.count = su.segments.toNat := by rw [Store.count, h.segmentCount]
  have hlive : L.live [] = none := h.live_none hnil
  refine ⟨_, L', h', by rw [hnext, Function.update_self], Operation.next_nil hput hnil, fun hexp => ?_⟩
  have hexp : st.expires clk.time (putRecord key data ttl ts priority hkey hdata) = false := by
    rw [← Bool.not_eq_true, h'.expires_iff] at hexp
    rwa [← Bool.not_eq_true, h.expires_iff]
  obtain ⟨t', ht', -⟩ := hf.keeps h.capped (hcount ▸ htwo) hlive hput key.bytes _
    (by rw [hnext, Function.update_self]) (fun now hnow => by cases hnow; exact hexp) hspares
  rw [ht']
  rfl

/-- **What a lookup answers**: the value of the record, unless its TTL, cut to 24 bits, has run out. -/
theorem Tracked.lookup {k : Key} {r : Record} {now : UInt32} (h : Tracked su b m st fs L k r now)
    {clk : Clock} (hclk : now ≤ clk.time) {key : Buf} (hkey : key.bytes = k) :
    ((Prog.exec posix (st.getValue clk key) fs).1.1 = none ↔
        Expired (r.hdr.ttl % 16777216) su.ttlSecs r.hdr.timestamp clk.time) ∧
      ((st.exists clk key).1 = false ↔
        Expired (r.hdr.ttl % 16777216) su.ttlSecs r.hdr.timestamp clk.time) := by
  rw [h.held.rep.getValue_exec, h.held.rep.exists_fst, hkey, Option.isSome_eq_false_iff,
    Option.isNone_iff_eq_none, and_self_iff, ← h.held.expires_iff, Store.visible, Option.map_eq_none_iff]
  cases hexp : st.expires clk.time r with
  | true =>
    refine iff_of_true ?_ rfl
    cases hl : L.live k with
    | none => rfl
    | some t =>
      rw [Option.filter_some, h.record hl, hexp]
      rfl
  | false =>
    refine iff_of_false ?_ Bool.false_ne_true
    have hexp₀ : st.expires now r = false := by
      rw [← Bool.not_eq_true, h.held.expires_iff] at hexp ⊢
      exact fun he => hexp (he.mono hclk)
    obtain ⟨t, ht⟩ := Option.isSome_iff_exists.1 (h.live hexp₀)
    rw [ht, Option.filter_some, h.record ht, hexp]
    exact Option.some_ne_none _

/-- A put that succeeds keeps to the limits. -/
theorem Held.put_limits (h : Held su b m st fs L) {clk : Clock} {key data : Buf} {ttl ts : UInt32}
    {priority : UInt8}
    (hput : (Prog.exec posix (st.put clk key data ttl ts priority) fs).1.1 = true) :
    key.bytes.length ≤ maxKeyLen ∧ data.bytes.length ≤ maxValueLen := by
  by_contra hlim
  rw [h.rep.put_beyond hlim] at hput
  cases hput

end expiring

/-- **TTLs are respected** exactly where the TTL that is left of 24 bits runs out when the full one
does, in every run in which no segment file reaches `2 ^ 24` bytes and nothing is put or removed between
a manual compaction and the next opening of the files. -/
theorem ttl_respected_iff (su : Setup) (order : IterationOrder) (fs : FileSystem)
    (hstart : su.Starts order fs) (htwo : 2 ≤ su.segments.toNat) (ops ops' : List Operation)
    (clk : Clock) (key data : Buf) (ttl ts : UInt32) (priority : UInt8)
    (hput : (Prog.exec posix ((su.reach order fs ops).1.put clk key data ttl ts priority)
      (su.reach order fs ops).2).1.1 = true)
    (hsmall : su.SmallRun (ops ++ .put clk key data ttl ts priority :: ops')
      (Prog.exec posix (su.start order) fs))
    (hord : Operation.Orderly false (ops ++ .put clk key data ttl ts priority :: ops'))
    (hne : ∀ op ∈ ops ++ .put clk key data ttl ts priority :: ops', op.puts ≠ some [])
    (hleaves : ∀ op ∈ ops', op.Leaves key.bytes) (htimes : Operation.Ordered clk.time ops')
    (hspares : su.Spares key.bytes (.put clk key data ttl ts priority :: ops') (su.reach order fs ops))
    (later : Clock) (hlater : Operation.lastTime clk.time ops' ≤ later.time) :
    RespectsTtl su (su.reach order fs (ops ++ .put clk key data ttl ts priority :: ops')) key ttl ts
        later ↔
      (Expired (ttl % 16777216) su.ttlSecs ts later.time ↔ Expired ttl su.ttlSecs ts later.time) := by
  rw [Setup.smallRun_append] at hsmall
  rw [Operation.orderly_append] at hord
  obtain ⟨L₀, h₀, -⟩ := hstart.reach hsmall.1 hord.1
  rw [hord.2.1 rfl] at h₀
  have hord' := hord.2.2
  rw [hord.2.1 rfl] at hord'
  obtain ⟨hkey, hdata⟩ := h₀.put_limits hput
  have hnonempty : key.bytes ≠ [] := fun he =>
    hne _ (List.mem_append_right _ List.mem_cons_self) (congrArg some he)
  have hnil := @Operation.records_nil ops (fun op h => hne op (List.mem_append_left _ h))
    (fun _ => none) rfl
  obtain ⟨m₁, L₁, h₁⟩ := h₀.tracked_put hnil htwo hkey hdata hnonempty hsmall.2.1 hspares.1
  obtain ⟨b, m, L, h⟩ := h₁.run htwo hsmall.2.2 hord' hleaves
    (fun op h => hne op (List.mem_append_right _ (List.mem_cons_of_mem _ h))) htimes hspares.2
  obtain ⟨hget, hex⟩ := h.lookup hlater rfl
  rw [RespectsTtl, Setup.reach, Setup.run_append]
  exact (and_congr (iff_congr hget Iff.rfl) (iff_congr hex Iff.rfl)).trans (and_self_iff ..)

theorem ttl_respected_iff_sample :
    RespectsTtl sampleSetup (sampleSetup.reach .recent .empty
      [.put ⟨0, 0, 0⟩ (.at [97]) (.at [1]) 5 0 0, .restart .recent]) (.at [97]) 5 0 ⟨3, 0, 0⟩ ↔
      (Expired (5 % 16777216) 0 0 3 ↔ Expired 5 0 0 3) :=
  ttl_respected_iff sampleSetup .recent .empty sampleSetup_starts (by decide) [] [.restart .recent]
    ⟨0, 0, 0⟩ (.at [97]) (.at [1]) 5 0 0 (by decide +kernel) (by decide +kernel) (by decide) (by decide)
    (by decide) (by decide +kernel) (by decide +kernel) ⟨3, 0, 0⟩ (by decide +kernel)

/-- A TTL of `2 ^ 24` seconds never runs out. -/
theorem ttl_outlived :
    ¬RespectsTtl sampleSetup (sampleSetup.reach .recent .empty
      [.put ⟨0, 0, 0⟩ (.at [97]) (.at [1]) 16777216 0 0]) (.at [97]) 16777216 0 ⟨16777216, 0, 0⟩ := by
  intro h
  have hex : ((sampleSetup.reach .recent .empty
      [.put ⟨0, 0, 0⟩ (.at [97]) (.at [1]) 16777216 0 0]).1.exists ⟨16777216, 0, 0⟩ (.at [97])).1
        = true := by
    decide +kernel
  cases hex.symm.trans (h.2.2 (by decide))

end MicroStore
