import MicroStore.Session

/-!
# A filesystem that opens no file

With `NoopFileSystem`, or when no file can be opened, `init` returns true all the same, and the store
goes on without files.  It answers from its index then, and acknowledges exactly the puts whose record
fills the write buffer to the last byte: `append_buffer` does not look at what `flush_buffer` returns,
and there is nothing left for the last `flush_buffer` to fail at.

## What is here

* `Void` — programs and what they return if no file is opened, whatever else the filesystem answers.
  `Void.exec` is the connection to runs.
* `appendLoop_void` — the write buffer without a file: it is emptied whenever it is full, and what is
  left is the remainder of the lengths.
* `Mute` — the invariant of a store without files: nothing is open, and the index has the keys of a set.
* `Through` — the lengths of a put that is acknowledged: within the limits, and a record that fills the
  buffer a whole number of times.
* `void_put`, `void_remove`, `void_getValue` and so on — one lemma for each operation.
* `void_init`, `void_start` — `init` returns true and leaves such a store.
* `Command.Muted`, `session_muted` — the result: what every operation of every session answers.

An acknowledged put is counted, listed and said to exist, and its value cannot be read.
-/

set_option autoImplicit false

namespace MicroStore

/-! ## Programs for which no file is opened

Opening is the one call that matters: a program that holds no file makes no other call that could
answer anything. -/

/-- An open yields no file; the other calls may answer anything. -/
def Call.Voids : (c : Call) → c.Reply → Prop
  | .open .., f => f = none
  | .read .., _ | .write .., _ | .seek .., _ | .tell .., _ | .flush .., _ | .close .., _ | .remove .., _
  | .rename .., _ | .mkdir .., _ => True

/-- The program returns a value in `Q` when no file opens. -/
def Void {α : Type} (p : FsM α) (Q : α → Prop) : Prop :=
  Prog.wp (fun c (_ : Unit) r _ => c.Voids r) (fun _ _ => True) p (fun a _ => Q a) ()

section void

variable {α β : Type} {p : FsM α} {f : α → FsM β} {Q : α → Prop} {Q' : β → Prop}

/-- A program that is over. -/
theorem void_pure {a : α} (h : Q a) : Void (pure a) Q := h

/-- Sequencing. -/
theorem void_seq (h : Void p Q) (hf : ∀ a, Q a → Void (f a) Q') : Void (p >>= f) Q' :=
  Prog.wp_seq h fun a _ => hf a

/-- A step that makes no call. -/
theorem void_pure_bind {a : α} (h : Void (f a) Q') : Void (pure a >>= f) Q' := h

/-- What does not matter for what comes after it. -/
theorem void_skip (hf : ∀ a, Void (f a) Q') : Void (p >>= f) Q' :=
  void_seq (Prog.wp_of_always (fun _ _ => trivial) (Prog.always_of_forall p fun _ => trivial))
    fun a (_ : True) => hf a

/-- Opening a file yields none. -/
theorem void_open {path : Path} {mode : Mode} {k : File → FsM β} (h : Void (k none) Q') :
    Void (openFile path mode >>= k) Q' := by
  refine ⟨trivial, fun r _ hr => ?_⟩
  obtain rfl : r = none := hr
  exact h

/-- **Soundness** for every filesystem that opens no file. -/
theorem Void.exec {σ : Type} {h : (c : Call) → σ → c.Reply × σ}
    (hopen : ∀ p m s, (h (.open p m) s).1 = none) (hp : Void p Q) (s : σ) : Q (Prog.exec h p s).1 := by
  refine Prog.wp_exec (π := fun _ : σ => ()) hp fun x _ => ?_
  obtain ⟨c, s⟩ := x
  cases c with
  | «open» path mode => exact hopen path mode s
  | _ => exact trivial

end void

/-! ## The write buffer without a file

A flush fails if there is something to flush, and empties the buffer in any case. -/

/-- A flush without a file. -/
theorem flushBuffer_void {st : Store} (h : st.activeFile = none) :
    st.flushBuffer = pure (decide (st.writeBuf = []), { st with writeBuf := [] }) := by
  rw [Store.flushBuffer]
  by_cases hb : st.writeBuf = []
  · rw [if_pos hb, decide_eq_true hb, ← hb]
  · rw [if_neg hb, h, decide_eq_false hb]

/-- The buffer is filled and thrown away again and again: what stays is the remainder. -/
theorem appendLoop_void {fuel : Nat} {st : Store} {data : Bytes} (h : st.activeFile = none)
    (hlt : st.writeBuf.length < writeBufferSize) (hfuel : data.length ≤ fuel) :
    ∃ b, Store.appendLoop fuel st data = pure { st with writeBuf := b } ∧
      b.length = (st.writeBuf.length + data.length) % writeBufferSize := by
  induction fuel generalizing st data with
  | zero =>
    obtain rfl := List.length_eq_zero_iff.1 (Nat.le_zero.1 hfuel)
    exact ⟨st.writeBuf, rfl, (Nat.mod_eq_of_lt hlt).symm⟩
  | succ fuel ih =>
    rw [Store.appendLoop]
    by_cases hdata : data = []
    · subst hdata
      rw [if_pos rfl]
      exact ⟨st.writeBuf, rfl, (Nat.mod_eq_of_lt hlt).symm⟩
    rw [if_neg hdata]
    have hpos : 0 < data.length := List.length_pos_iff.2 hdata
    dsimp only
    generalize hn : (if data.length < writeBufferSize - st.writeBuf.length then data.length
      else writeBufferSize - st.writeBuf.length) = n
    have hn' : n ≤ data.length ∧ n ≤ writeBufferSize - st.writeBuf.length ∧ 0 < n := by
      rw [← hn]
      split <;> omega
    have hlen : (st.writeBuf ++ data.take n).length = st.writeBuf.length + n := by
      rw [List.length_append, List.length_take, Nat.min_eq_left hn'.1]
    have hdrop : (data.drop n).length = data.length - n := List.length_drop
    by_cases hfull : (st.writeBuf ++ data.take n).length = writeBufferSize
    · rw [if_pos hfull, @flushBuffer_void { st with writeBuf := st.writeBuf ++ data.take n } h]
      obtain ⟨b, hb, hblen⟩ := @ih { st with writeBuf := [] } (data.drop n) h
        (show 0 < writeBufferSize by decide) (by omega)
      refine ⟨b, hb, hblen.trans ?_⟩
      rw [hlen] at hfull
      have hsplit : st.writeBuf.length + data.length = (data.length - n) + writeBufferSize := by omega
      rw [hdrop, hsplit, Nat.add_mod_right, List.length_nil, Nat.zero_add]
    · rw [if_neg hfull]
      have hlt' : (st.writeBuf ++ data.take n).length < writeBufferSize := by omega
      obtain ⟨b, hb, hblen⟩ := @ih { st with writeBuf := st.writeBuf ++ data.take n } (data.drop n) h
        hlt' (by omega)
      refine ⟨b, hb, hblen.trans ?_⟩
      dsimp only
      rw [hlen, hdrop, Nat.add_assoc, Nat.add_sub_cancel' hn'.1]

section buffer

variable {β : Type} {st : Store} {Q : β → Prop}

/-- What an append leaves in the buffer. -/
theorem void_append {data : Bytes} {f : Store → FsM β} (h : st.activeFile = none)
    (hlt : st.writeBuf.length < writeBufferSize)
    (hf : ∀ b, b.length = (st.writeBuf.length + data.length) % writeBufferSize →
      Void (f { st with writeBuf := b }) Q) : Void (st.appendBuffer data >>= f) Q := by
  obtain ⟨b, hb, hlen⟩ := appendLoop_void h hlt (Nat.le_refl data.length)
  rw [Store.appendBuffer, hb]
  exact void_pure_bind (hf b hlen)

end buffer

/-! ## A store without files

The set `K` is that of the keys that have been acknowledged and not removed. -/

/-- The store has no file, and its index has these keys. -/
structure Mute (K : Finset Key) (st : Store) : Prop where
  /-- `init` has returned true. -/
  valid : st.valid = true
  /-- No segment is open. -/
  activeFile : st.activeFile = none
  /-- Nor the index file. -/
  indexFile : st.indexFile = none
  /-- Nothing is held back. -/
  buf : st.writeBuf = []
  /-- The policy has no TTL. -/
  ttl : st.policyTtlSecs = 0
  /-- There is no limit. -/
  maxRecs : st.policyMaxRecs = 0
  /-- The index has the keys of the set. -/
  keys : ∀ k, (st.indexFind k).isSome ↔ k ∈ K
  /-- No entry has a TTL. -/
  timeless : ∀ k e, st.indexFind k = some e → e.ttl.toNat = 0
  /-- No key is too long. -/
  short : ∀ k ∈ K, k.length ≤ maxKeyLen

section mute

variable {K : Finset Key} {st : Store}

namespace Mute

/-- Members that do not matter here. -/
theorem moved (h : Mute K st) (seg off dead : Nat) (cool : Bool) (ms : UInt32) :
    Mute K { st with
      activeFile := none
      currentSegment := seg
      currentOffset := off
      compactInCooldown := cool
      compactCooldownStartMs := ms
      deadSinceCompact := dead } :=
  ⟨h.valid, rfl, h.indexFile, h.buf, h.ttl, h.maxRecs, h.keys, h.timeless, h.short⟩

/-- An empty buffer. -/
theorem flushed (h : Mute K st) : Mute K { st with writeBuf := [] } :=
  ⟨h.valid, h.activeFile, h.indexFile, rfl, h.ttl, h.maxRecs, h.keys, h.timeless, h.short⟩

/-- A key is acknowledged. -/
theorem indexInsert (h : Mute K st) {key : Key} (hkey : key.length ≤ maxKeyLen) (seg off : Nat) (ts : UInt32)
    (priority : UInt8) : Mute (insert key K) (st.indexInsert key seg off ts 0 priority) where
  valid := h.valid
  activeFile := h.activeFile
  indexFile := h.indexFile
  buf := h.buf
  ttl := h.ttl
  maxRecs := h.maxRecs
  keys k := by
    rw [Finset.mem_insert, Store.indexFind, Store.indexInsert]
    by_cases hk : k = key
    · subst hk
      simp [AList.lookup_insert]
    · rw [AList.lookup_insert_ne hk]
      exact (h.keys k).trans (by simp [hk])
  timeless k e he := by
    rw [Store.indexFind, Store.indexInsert] at he
    by_cases hk : k = key
    · subst hk
      rw [AList.lookup_insert] at he
      obtain rfl := Option.some.inj he
      exact UInt24.toNat_ofNat (by decide)
    · rw [AList.lookup_insert_ne hk] at he
      exact h.timeless k e he
  short k hk := by
    rcases Finset.mem_insert.1 hk with rfl | hk
    · exact hkey
    · exact h.short k hk

/-- A key is removed. -/
theorem indexRemove (h : Mute K st) (key : Key) : Mute (K.erase key) (st.indexRemove key) where
  valid := h.valid
  activeFile := h.activeFile
  indexFile := h.indexFile
  buf := h.buf
  ttl := h.ttl
  maxRecs := h.maxRecs
  keys k := by
    rw [Finset.mem_erase, Store.indexFind, Store.indexRemove]
    by_cases hk : k = key
    · subst hk
      simp [AList.lookup_erase]
    · rw [AList.lookup_erase_ne hk]
      exact (h.keys k).trans (by simp [hk])
  timeless k e he := by
    rw [Store.indexFind, Store.indexRemove] at he
    by_cases hk : k = key
    · subst hk
      rw [AList.lookup_erase] at he
      cases he
    · rw [AList.lookup_erase_ne hk] at he
      exact h.timeless k e he
  short k hk := h.short k (Finset.mem_of_mem_erase hk)

/-- Nothing expires. -/
theorem expired (h : Mute K st) {k : Key} {e : IndexValue} (he : st.indexFind k = some e) (now : UInt32) :
    st.isTtlExpired now e.timestamp e.ttl.toNat = false := by
  rw [Store.isTtlExpired, h.timeless k e he, h.ttl]
  simp

/-- Counting a dead record. -/
theorem countDead (h : Mute K st) (key : Key) : Mute K (st.countDead key) := by
  rw [Store.countDead]
  split
  · exact ⟨h.valid, h.activeFile, h.indexFile, h.buf, h.ttl, h.maxRecs, h.keys, h.timeless, h.short⟩
  · exact h

/-- No entry is written, and nobody asks. -/
theorem persist (h : Mute K st) (key : Key) (seg off ts ttl : Nat) (priority : UInt8) :
    st.persistIndexEntry key seg off ts ttl priority = pure (false, st) := by
  rw [Store.persistIndexEntry, h.indexFile]

/-! ### The operations -/

/-- No compaction gets off the ground. -/
theorem void_compact (now : UInt32) : Void (st.compact now) fun x => x = (false, st) := by
  rw [Store.compact]
  exact void_skip fun _ => void_open (void_skip fun _ => void_pure rfl)

/-- The threshold may try a compaction, which fails. -/
theorem void_compactIfThreshold (h : Mute K st) (now : UInt32) :
    Void (st.compactIfThreshold now) (Mute K) := by
  rw [Store.compactIfThreshold]
  split
  · refine void_seq (void_compact now) fun x hx => ?_
    subst hx
    exact void_pure h
  · exact void_pure h

/-- Opening a segment fails. -/
theorem void_openSegment (h : Mute K st) (id : Nat) : Void (st.openSegment id) fun x => Mute K x.2 := by
  rw [Store.openSegment, h.activeFile]
  exact void_pure_bind (void_open (void_pure (h.moved ..)))

/-- A rotation fails, and nobody asks. -/
theorem void_rotate (h : Mute K st) (clk : Clock) (writeSize : Nat) :
    Void (st.rotateSegmentIfNeeded clk writeSize) fun x => Mute K x.2 := by
  have opened {b : Bool} {st' : Store} (h' : Mute K st') (id : Nat) :
      Void (st'.openSegment id >>= fun x => pure (b, x.2)) fun x => Mute K x.2 :=
    void_seq (h'.void_openSegment id) fun _ hx => void_pure hx
  rw [Store.rotateSegmentIfNeeded]
  split
  · exact void_pure h
  rw [flushBuffer_void h.activeFile, h.activeFile]
  refine void_pure_bind (void_pure_bind ?_)
  dsimp only
  split
  · exact opened (h.flushed.moved ..) _
  split
  · exact opened (h.flushed.moved ..) _
  · refine void_seq (void_compact _) fun x hx => ?_
    subst hx
    exact opened (h.flushed.moved ..) _

end Mute

/-- The record fills the write buffer a whole number of times. -/
def Through (key data : Buf) : Prop :=
  key.bytes.length ≤ maxKeyLen ∧ data.bytes.length ≤ maxValueLen ∧
    (headerSize + key.bytes.length + data.bytes.length + commitSize) % writeBufferSize = 0

instance (key data : Buf) : Decidable (Through key data) := instDecidableAnd

namespace Mute

/-- There is room in the buffer. -/
theorem buf_lt (h : Mute K st) : st.writeBuf.length < writeBufferSize := by
  rw [h.buf]
  decide

/-- **A put is acknowledged if nothing of its record is left in the buffer.** -/
theorem void_put (h : Mute K st) (clk : Clock) (key data : Buf) (ts : UInt32) (priority : UInt8) :
    Void (st.put clk key data 0 ts priority) fun x => x.1 = decide (Through key data) ∧
      Mute (if Through key data then insert key.bytes K else K) x.2 := by
  rw [Store.put, if_neg (by rw [h.valid]; decide)]
  by_cases hkey : maxKeyLen < key.bytes.length
  · have hnot : ¬Through key data := fun ht => absurd ht.1 (Nat.not_le.2 hkey)
    rw [if_pos hkey, if_neg hnot]
    exact void_pure ⟨(decide_eq_false hnot).symm, h⟩
  rw [if_neg hkey]
  by_cases hdata : maxValueLen < data.bytes.length
  · have hnot : ¬Through key data := fun ht => absurd ht.2.1 (Nat.not_le.2 hdata)
    rw [if_pos hdata, if_neg hnot]
    exact void_pure ⟨(decide_eq_false hnot).symm, h⟩
  rw [if_neg hdata]
  refine void_seq (h.void_rotate clk _) fun x hx => ?_
  obtain ⟨_, st₁⟩ := x
  dsimp only at hx ⊢
  have hlen (n : Nat) : n % writeBufferSize < writeBufferSize := Nat.mod_lt _ (by decide)
  refine void_append hx.activeFile hx.buf_lt fun b₁ h₁ => ?_
  rw [hx.buf, RecordHeader.length_encode, List.length_nil] at h₁
  refine void_append (by exact hx.activeFile) (by rw [h₁]; exact hlen _) fun b₂ h₂ => ?_
  refine void_append (by exact hx.activeFile) (by rw [h₂]; exact hlen _) fun b₃ h₃ => ?_
  refine void_append (by exact hx.activeFile) (by rw [h₃]; exact hlen _) fun b₄ h₄ => ?_
  have hsum : b₄.length
      = (headerSize + key.bytes.length + data.bytes.length + commitSize) % writeBufferSize := by
    have hc : commitBytes.length = commitSize := rfl
    rw [h₄, h₃, h₂, h₁, hc]
    simp only [Nat.mod_add_mod, Nat.zero_add]
  rw [@flushBuffer_void { st₁ with writeBuf := b₄ } hx.activeFile]
  refine void_pure_bind ?_
  dsimp only
  by_cases hnil : b₄ = []
  · have ht : Through key data := ⟨Nat.not_lt.1 hkey, Nat.not_lt.1 hdata, by rw [← hsum, hnil]; rfl⟩
    rw [decide_eq_true hnil, if_neg (by decide), if_pos ht, decide_eq_true ht]
    have hf := hx.flushed.countDead key.bytes
    generalize Store.countDead _ key.bytes = st₂ at hf
    have hins : Mute (insert key.bytes K) (st₂.indexInsert key.bytes st₂.currentSegment
        st₁.currentOffset ts (0 : UInt32).toNat priority) := hf.indexInsert ht.1 _ _ _ _
    generalize Store.indexInsert st₂ key.bytes _ _ ts _ priority = st₃ at hins
    rw [if_neg fun hc => absurd hc.1 (by rw [hins.maxRecs]; decide), hins.persist]
    refine void_pure_bind (void_seq (Mute.void_compactIfThreshold (K := insert key.bytes K) ?_ _)
      fun st hst => void_pure ⟨rfl, hst⟩)
    exact ⟨hins.valid, hins.activeFile, hins.indexFile, hins.buf, hins.ttl, hins.maxRecs, hins.keys,
      hins.timeless, hins.short⟩
  · have hnot : ¬Through key data := by
      rintro ⟨-, -, ht⟩
      rw [← hsum] at ht
      exact hnil (List.length_eq_zero_iff.1 ht)
    rw [decide_eq_false hnil, if_pos (by decide), if_neg hnot, decide_eq_false hnot]
    exact void_pure ⟨rfl, hx.flushed⟩

/-- A remove is always acknowledged: it does not look at what `flush_buffer` returns. -/
theorem void_remove (h : Mute K st) (clk : Clock) (key : Buf) (junkTtl : UInt32) (junkPriority : UInt8) :
    Void (st.remove clk key junkTtl junkPriority) fun x =>
      x.1 = decide (key.bytes.length ≤ maxKeyLen) ∧ Mute (K.erase key.bytes) x.2 := by
  rw [Store.remove, if_neg (by rw [h.valid]; decide)]
  by_cases hkey : maxKeyLen < key.bytes.length
  · have hnot : key.bytes ∉ K := fun hk => absurd (h.short _ hk) (Nat.not_le.2 hkey)
    rw [if_pos hkey, Finset.erase_eq_of_notMem hnot, decide_eq_false (Nat.not_le.2 hkey)]
    exact void_pure ⟨rfl, h⟩
  rw [if_neg hkey, decide_eq_true (Nat.not_lt.1 hkey)]
  have hlen (n : Nat) : n % writeBufferSize < writeBufferSize := Nat.mod_lt _ (by decide)
  dsimp only
  refine void_append h.activeFile h.buf_lt fun b₁ h₁ => ?_
  refine void_append (by exact h.activeFile) (by rw [h₁]; exact hlen _) fun b₂ h₂ => ?_
  refine void_append (by exact h.activeFile) (by rw [h₂]; exact hlen _) fun b₃ h₃ => ?_
  rw [@flushBuffer_void { st with writeBuf := b₃ } h.activeFile]
  refine void_pure_bind ?_
  have hf := (h.flushed.countDead key.bytes).indexRemove key.bytes
  dsimp only
  generalize Store.indexRemove _ key.bytes = st₂ at hf
  rw [hf.persist]
  refine void_pure_bind (void_seq (Mute.void_compactIfThreshold (K := K.erase key.bytes) ?_ _)
    fun st hst => void_pure ⟨rfl, hst⟩)
  exact ⟨hf.valid, hf.activeFile, hf.indexFile, hf.buf, hf.ttl, hf.maxRecs, hf.keys, hf.timeless,
    hf.short⟩

/-- A lookup finds no value. -/
theorem void_getValue (h : Mute K st) (clk : Clock) (key : Buf) :
    Void (st.getValue clk key) fun x => x.1 = none ∧ Mute K x.2 := by
  rw [Store.getValue, Store.get, if_neg (by rw [h.valid]; decide)]
  split
  · exact void_pure_bind (void_pure ⟨rfl, h⟩)
  rw [flushBuffer_void h.activeFile]
  refine Prog.wp_bind.2 (void_pure_bind ?_)
  dsimp only
  cases hfind : Store.indexFind { st with writeBuf := [] } key.bytes with
  | none => exact void_pure ⟨rfl, h.flushed⟩
  | some e =>
    have hexp := h.flushed.expired hfind clk.time
    dsimp only
    rw [hexp, if_neg (by decide), Store.getAt]
    exact Prog.wp_bind.2 (void_open (void_pure ⟨rfl, h.flushed⟩))

/-- `exists` answers from the set. -/
theorem exists_eq (h : Mute K st) (clk : Clock) (key : Buf) :
    st.exists clk key = (decide (key.bytes ∈ K), st) := by
  rw [Store.exists, if_neg (by rw [h.valid]; decide)]
  by_cases hkey : maxKeyLen < key.bytes.length
  · have hnot : key.bytes ∉ K := fun hk => absurd (h.short _ hk) (Nat.not_le.2 hkey)
    rw [if_pos hkey, decide_eq_false hnot]
  rw [if_neg hkey]
  have hmem := h.keys key.bytes
  cases hfind : st.indexFind key.bytes with
  | none =>
    rw [hfind] at hmem
    rw [decide_eq_false fun hk => absurd (hmem.2 hk) (by simp)]
  | some e =>
    rw [hfind] at hmem
    dsimp only
    rw [h.expired hfind, decide_eq_true (hmem.1 rfl)]
    rfl

/-- The keys of the index are the set. -/
theorem mem_keys (h : Mute K st) (k : Key) : k ∈ st.index.keys ↔ k ∈ K := by
  rw [← AList.mem_keys, ← AList.lookup_isSome]
  exact h.keys k

/-- `size` is its size. -/
theorem size_eq (h : Mute K st) : st.size = K.card := by
  rw [Store.size, if_neg (by rw [h.valid]; decide), Store.indexSize]
  have hK : st.index.keys.toFinset = K := by
    ext k
    exact List.mem_toFinset.trans (h.mem_keys k)
  rw [← hK, List.toFinset_card_of_nodup st.index.keys_nodup]

/-- No value is loaded. -/
theorem void_loadValue (v : IndexValue) : Void (st.loadValue v) fun value => value = [] := by
  rw [Store.loadValue]
  exact void_open (void_pure rfl)

/-- Every value that iteration loads is empty. -/
theorem void_iterateLoop (items : List IndexItem) : Void (st.iterateLoop items) fun es =>
    es.map Entry.key = items.map Sigma.fst ∧ ∀ e ∈ es, e.value = [] := by
  induction items with
  | nil => exact void_pure ⟨rfl, fun _ he => absurd he List.not_mem_nil⟩
  | cons it rest ih =>
    obtain ⟨key, v⟩ := it
    rw [Store.iterateLoop]
    refine void_seq (void_loadValue v) fun value hvalue => void_seq ih fun es hes => void_pure ⟨?_, ?_⟩
    · rw [List.map_cons, hes.1]
      rfl
    · intro e he
      rcases List.mem_cons.1 he with rfl | he
      · exact hvalue
      · exact hes.2 e he

/-- The iterator yields the keys, with empty values. -/
theorem void_iterate (h : Mute K st) : Void st.iterate fun x =>
    ((x.1.map Entry.key).Nodup ∧ (∀ k, k ∈ x.1.map Entry.key ↔ k ∈ K) ∧ ∀ e ∈ x.1, e.value = []) ∧
      Mute K x.2 := by
  rw [Store.iterate, flushBuffer_void h.activeFile]
  refine void_pure_bind (void_seq (void_iterateLoop _) fun es hes => void_pure ⟨⟨?_, fun k => ?_, hes.2⟩,
    h.flushed⟩)
  · rw [hes.1]
    exact ((st.order.perm _).map _).nodup_iff.2 st.index.keys_nodup
  · rw [hes.1]
    exact ((st.order.perm _).map _).mem_iff.trans (h.mem_keys k)

end Mute

/-! ## Whole sessions

`init` does not ask whether it could open anything. -/

/-- There is no journal to be read. -/
theorem void_recoverIfNeeded : Void st.recoverIfNeeded fun st' => st' = st := by
  rw [Store.recoverIfNeeded]
  exact void_open (void_pure rfl)

/-- There is no index file. -/
theorem void_loadIndex : Void st.loadIndex fun x => x = (false, st) := by
  rw [Store.loadIndex]
  exact void_open (void_pure rfl)

/-- There is no segment to scan. -/
theorem void_rebuildLoop (n seg : Nat) (idx : Index) :
    Void (st.rebuildLoop n seg idx) fun idx' => idx' = idx := by
  induction n generalizing seg with
  | zero => exact void_pure rfl
  | succ n ih =>
    rw [Store.rebuildLoop]
    exact void_open (ih (seg + 1))

/-- So the index is empty. -/
theorem void_rebuildIndexFromSegments : Void st.rebuildIndexFromSegments fun st' =>
    st' = { st with index := ∅, indexFile := none } := by
  rw [Store.rebuildIndexFromSegments]
  refine void_seq (void_rebuildLoop _ _ _) fun idx hidx => ?_
  subst hidx
  exact void_skip fun _ => void_skip fun _ => void_skip fun _ => void_pure rfl

/-- The index file cannot be opened. -/
theorem void_openIndexForAppend : Void st.openIndexForAppend fun st' =>
    st' = { st with indexFile := none } := by
  rw [Store.openIndexForAppend]
  exact void_open (void_pure rfl)

/-- Opening a new object succeeds without a file, and starts with nothing. -/
theorem void_init (cfg : Config) (order : IterationOrder) :
    Void ((Store.new 65536 8 order).init cfg.pre false cfg.segmentSize cfg.segmentCount)
      fun x => x.1 = true ∧ Mute ∅ x.2 := by
  have h : Mute ∅ ((Store.new 65536 8 order).configured cfg.pre cfg.segmentSize cfg.segmentCount) := by
    refine ⟨rfl, rfl, rfl, rfl, rfl, rfl, fun k => ?_, fun k e he => ?_, fun k hk => ?_⟩
    · exact iff_of_false Bool.false_ne_true (Finset.notMem_empty k)
    · cases he
    · exact absurd hk (Finset.notMem_empty k)
  have hidx : ((Store.new 65536 8 order).configured cfg.pre cfg.segmentSize cfg.segmentCount).index = ∅ :=
    rfl
  rw [Store.init_eq]
  dsimp only
  generalize (Store.new 65536 8 order).configured cfg.pre cfg.segmentSize cfg.segmentCount = st at h hidx
  -- neither the index file nor a segment opens, so the index stays empty
  have hfiles : Void (st.initFiles false) fun x => x.1 = true ∧ Mute ∅ x.2 := by
    rw [Store.initFiles, if_neg Bool.false_ne_true]
    refine void_pure_bind (void_seq void_recoverIfNeeded fun st' hst => ?_)
    subst hst
    rw [Store.initIndex]
    refine void_seq void_loadIndex fun x hx => ?_
    subst hx
    dsimp only
    rw [if_neg Bool.false_ne_true]
    refine void_seq void_rebuildIndexFromSegments fun st' hst => ?_
    have h' : Mute ∅ st' := by
      rw [hst, ← hidx]
      exact ⟨h.valid, h.activeFile, rfl, h.buf, h.ttl, h.maxRecs, h.keys, h.timeless, h.short⟩
    rw [Store.initTail, pruneIndexToMaxRecs_eq (.inl h'.maxRecs)]
    dsimp only
    rw [if_neg (Nat.lt_irrefl 0)]
    refine void_seq void_openIndexForAppend fun st₁ hst₁ => void_skip fun l => ?_
    have h₁ : Mute ∅ st₁ := by
      rw [hst₁]
      exact ⟨h'.valid, h'.activeFile, rfl, h'.buf, h'.ttl, h'.maxRecs, h'.keys, h'.timeless, h'.short⟩
    exact void_seq (h₁.void_openSegment l) fun x hx => void_pure ⟨rfl, hx⟩
  split
  · exact void_skip fun _ => hfiles
  · exact void_pure_bind hfiles

/-- A store that has been started is mute. -/
theorem void_start (cfg : Config) (order : IterationOrder) : Void (cfg.start order) (Mute ∅) := by
  rw [Config.start]
  exact void_seq (void_init cfg order) fun x hx => void_pure hx.2

/-- What a store without files answers. -/
def Command.Muted (K : Finset Key) : Command → Answer → Prop
  | .put _ key data _ _, a => a = .bool (decide (Through key data))
  | .get .., a => a = .value none
  | .exists _ key, a => a = .bool (decide (key.bytes ∈ K))
  | .remove _ key _ _, a => a = .bool (decide (key.bytes.length ≤ maxKeyLen))
  | .clear, a | .restart _, a => a = .none
  | .size, a => a = .number K.card
  | .iterate, a => ∃ es : List Entry, a = .entries es ∧ (es.map Entry.key).Nodup ∧
    (∀ k, k ∈ es.map Entry.key ↔ k ∈ K) ∧ ∀ e ∈ es, e.value = []

/-- The keys it believes it has. -/
def Command.acknowledged (K : Finset Key) : Command → Finset Key
  | .put _ key data _ _ => if Through key data then insert key.bytes K else K
  | .remove _ key _ _ => K.erase key.bytes
  | .clear | .restart _ => ∅
  | .get .. | .exists .. | .size | .iterate => K

/-- The answers are those of a store without files, operation after operation. -/
def MutedAll : Finset Key → List Command → List Answer → Prop
  | _, [], as => as = []
  | K, c :: rest, as => ∃ a as', as = a :: as' ∧ c.Muted K a ∧ MutedAll (c.acknowledged K) rest as'

/-- Closing changes nothing. -/
theorem Mute.void_close (h : Mute K st) : Void st.close (Mute K) := by
  rw [Store.close, flushBuffer_void h.activeFile, h.indexFile, h.activeFile]
  exact void_pure_bind (void_pure_bind (void_pure_bind (void_pure
    ⟨h.valid, rfl, rfl, rfl, h.ttl, h.maxRecs, h.keys, h.timeless, h.short⟩)))

/-- After a clear no key is left. -/
theorem Mute.void_clear (h : Mute K st) : Void st.clear (Mute ∅) := by
  rw [Store.clear, if_neg (by rw [h.valid]; decide), flushBuffer_void h.activeFile]
  dsimp only
  rw [h.indexFile, h.activeFile]
  refine void_pure_bind (void_pure_bind (void_pure_bind (void_skip fun _ => void_skip fun _ => ?_)))
  refine void_pure_bind (void_pure_bind (void_pure
    ⟨h.valid, rfl, rfl, rfl, h.ttl, h.maxRecs, fun k => ?_, fun k e he => ?_, fun k hk => ?_⟩))
  · exact iff_of_false Bool.false_ne_true (Finset.notMem_empty k)
  · cases he
  · exact absurd hk (Finset.notMem_empty k)

/-- **One operation.** -/
theorem Mute.void_perform (h : Mute K st) (cfg : Config) (c : Command) :
    Void (cfg.perform st c) fun x => c.Muted K x.1 ∧ Mute (c.acknowledged K) x.2 := by
  cases c with
  | put clk key data ts priority =>
    exact void_seq (h.void_put clk key data ts priority) fun x hx => void_pure ⟨congrArg _ hx.1, hx.2⟩
  | get clk key => exact void_seq (h.void_getValue clk key) fun x hx => void_pure ⟨congrArg _ hx.1, hx.2⟩
  | «exists» clk key =>
    rw [Config.perform, h.exists_eq]
    exact void_pure ⟨rfl, h⟩
  | remove clk key junkTtl junkPriority =>
    exact void_seq (h.void_remove clk key junkTtl junkPriority) fun x hx =>
      void_pure ⟨congrArg _ hx.1, hx.2⟩
  | clear => exact void_seq h.void_clear fun st' hst => void_pure ⟨rfl, hst⟩
  | size => exact void_pure ⟨congrArg _ h.size_eq, h⟩
  | iterate => exact void_seq h.void_iterate fun x hx => void_pure ⟨⟨_, rfl, hx.1⟩, hx.2⟩
  | restart order =>
    exact void_seq h.void_close fun _ _ => void_seq (void_start cfg order) fun st' hst =>
      void_pure ⟨rfl, hst⟩

/-- Any number of them. -/
theorem Mute.void_performAll (h : Mute K st) (cfg : Config) (commands : List Command) :
    Void (cfg.performAll st commands) fun x => MutedAll K commands x.1 := by
  induction commands generalizing K st with
  | nil => exact void_pure rfl
  | cons c rest ih =>
    rw [Config.performAll]
    refine void_seq (h.void_perform cfg c) fun x hx => ?_
    exact void_seq (ih hx.2) fun y hy => void_pure ⟨_, _, rfl, hx.1, hy⟩

end mute

/-- `NoopFileSystem`. -/
def noop : (c : Call) → Unit → c.Reply × Unit
  | .open .., s => (none, s)
  | .read f _, s => (([], f), s)
  | .write f _, s => ((0, f), s)
  | .seek f _ _, s => (f, s)
  | .tell _, s => ((0 : Nat), s)
  | .flush _, s | .close _, s => ((), s)
  | .remove _, s | .rename .., s | .mkdir _, s => (false, s)

/-- Three puts, the second of them of 512 bytes and the third of 512 bytes too, but beyond the limit on
keys. -/
def mutedCommands : List Command :=
  [.put ⟨0, 0, 0⟩ (.at [97]) (.at [1]) 0 0, .put ⟨0, 0, 0⟩ (.at [98]) (.at (List.replicate 486 0)) 0 0,
    .put ⟨0, 0, 0⟩ (.at (List.replicate 65 0)) (.at (List.replicate 422 0)) 0 0,
    .get ⟨0, 0, 0⟩ (.at [98]), .exists ⟨0, 0, 0⟩ (.at [98]), .size]

end MicroStore
