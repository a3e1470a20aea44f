import MicroStore.HeapStore
import MicroStore.Operating

/-!
# The overloads that take strings and vectors

`FileStore.h` and `HeapStore.h` offer every operation for C strings, `std::string` and `std::vector`.
An overload only passes on: it hands the data pointer and the length to the operation that checks the
lengths.  But the length goes through a parameter of one or two bytes, so it is cut before it is
checked.

## What is here

* `CStr`, `Span` — the argument types that carry a promise of their own: no zero byte in a C string, a
  length below `2 ^ 16` where the caller gives it as a `uint16_t`.
* `KeyCall` — the five operations that check lengths, with `KeyCall.run` and `KeyCall.runHeap` for the
  two stores.
* `Overload` — one constructor for each overload.  `Overload.passed` is the call it makes,
  `Overload.meant` the one on the whole key and the whole value.
* `Overload.RespectsLimits` — what the limits demand: what is too long is refused without a trace, and
  the rest does what is meant.
* `respectsLimits_iff` — this holds exactly where a length that is too long is still so modulo the width
  of its parameter.
* `getVecVec_reads_other_key` — an overload that reads another key's value: its key is cut to that key.

The results are about calls as programs, so they hold on any filesystem and in any state of the store.
-/

set_option autoImplicit false

namespace MicroStore

/-! ## Arguments -/

/-- A C string, up to its terminating zero. -/
structure CStr where
  /-- The characters before the terminating zero. -/
  chars : Bytes
  /-- No character is zero. -/
  nul : (0 : UInt8) ∉ chars

/-- The `(const uint8_t*, uint16_t)` argument for a value. -/
structure Span where
  /-- The data. -/
  buf : Buf
  /-- The length is the value of a `uint16_t`. -/
  lt : buf.bytes.length < 2 ^ 16

/-- The pointer with the length cut to a `uint8_t`. -/
def Buf.asKey : Buf → Buf
  | .null => .null
  | .at bs => .at (bs.take (UInt8.ofNat bs.length).toNat)

/-- The pointer with the length cut to a `uint16_t`. -/
def Buf.asValue : Buf → Buf
  | .null => .null
  | .at bs => .at (bs.take (UInt16.ofNat bs.length).toNat)

/-- A key is cut to its length modulo 256. -/
theorem Buf.bytes_asKey (b : Buf) : b.asKey.bytes = b.bytes.take (b.bytes.length % 2 ^ 8) := by
  cases b with
  | null => rfl
  | «at» bs => rfl

/-- A value is cut to its length modulo 65536. -/
theorem Buf.bytes_asValue (b : Buf) : b.asValue.bytes = b.bytes.take (b.bytes.length % 2 ^ 16) := by
  cases b with
  | null => rfl
  | «at» bs => rfl

theorem Buf.length_asKey (b : Buf) : b.asKey.bytes.length = b.bytes.length % 2 ^ 8 := by
  rw [bytes_asKey, List.length_take]
  exact Nat.min_eq_left (Nat.mod_le _ _)

theorem Buf.length_asValue (b : Buf) : b.asValue.bytes.length = b.bytes.length % 2 ^ 16 := by
  rw [bytes_asValue, List.length_take]
  exact Nat.min_eq_left (Nat.mod_le _ _)

/-- A short key is passed on whole. -/
theorem Buf.asKey_eq {b : Buf} (h : b.bytes.length < 2 ^ 8) : b.asKey = b := by
  cases b with
  | null => rfl
  | «at» bs =>
    have hlen : (UInt8.ofNat bs.length).toNat = bs.length := Nat.mod_eq_of_lt h
    rw [asKey, hlen, List.take_length]

/-- A short value is passed on whole. -/
theorem Buf.asValue_eq {b : Buf} (h : b.bytes.length < 2 ^ 16) : b.asValue = b := by
  cases b with
  | null => rfl
  | «at» bs =>
    have hlen : (UInt16.ofNat bs.length).toNat = bs.length := Nat.mod_eq_of_lt h
    rw [asValue, hlen, List.take_length]

/-! ## The calls that check the lengths

Every one of them begins with the checks, before anything is looked up or written. -/

/-- A call of one of the operations.  `getValue` is `get` into a vector or a string. -/
inductive KeyCall
  | put (key data : Buf) (ttl ts : UInt32) (priority : UInt8)
  | get (key : Buf) (out : Bool) (size : UInt16)
  | getValue (key : Buf)
  | remove (key : Buf)
  | «exists» (key : Buf)

namespace KeyCall

/-- The key of a call. -/
def key : KeyCall → Buf
  | .put key .. | .get key .. | .getValue key | .remove key | .exists key => key

/-- The value of a call, if it has one. -/
def value : KeyCall → Buf
  | .put _ data .. => data
  | .get .. | .getValue _ | .remove _ | .exists _ => .null

/-- What a call answers: nothing when it returns false, otherwise what it puts into the caller's
buffer and the length it reports. -/
abbrev Answer := Option (Bytes × Nat)

/-- `true` and `false`. -/
def ofBool (b : Bool) : Answer := if b then some ([], 0) else none

/-- Make the call on a file store.  `junkTtl` and `junkPriority` are what the header of a tombstone
holds in its uninitialised fields. -/
def run (c : KeyCall) (st : Store) (clk : Clock) (junkTtl : UInt32) (junkPriority : UInt8) :
    FsM (Answer × Store) :=
  match c with
  | .put key data ttl ts priority => do
    let (b, st) ← st.put clk key data ttl ts priority
    pure (ofBool b, st)
  | .get key out size => st.get clk key out size.toNat
  | .getValue key => do
    let (v, st) ← st.getValue clk key
    pure (v.map fun v => (v, v.length), st)
  | .remove key => do
    let (b, st) ← st.remove clk key junkTtl junkPriority
    pure (ofBool b, st)
  | .exists key => pure (ofBool (st.exists clk key).1, (st.exists clk key).2)

/-- Make the call on a heap store. -/
def runHeap (c : KeyCall) (hs : HeapStore) (now : UInt32) : Answer × HeapStore :=
  match c with
  | .put key data ttl ts priority =>
    (ofBool (hs.put now key data ttl ts priority).1, (hs.put now key data ttl ts priority).2)
  | .get key out size => hs.get now key out size.toNat
  | .getValue key =>
    ((hs.get now key true maxValueLen).1.map fun r => (r.1.take r.2, r.2),
      (hs.get now key true maxValueLen).2)
  | .remove key => (ofBool (hs.remove key).1, (hs.remove key).2)
  | .exists key => (ofBool (hs.exists key), hs)

/-- The key or the value is longer than the limits allow. -/
def TooLong (c : KeyCall) : Prop :=
  maxKeyLen < c.key.bytes.length ∨ maxValueLen < c.value.bytes.length

instance (c : KeyCall) : Decidable c.TooLong := inferInstanceAs (Decidable (_ ∨ _))

/-- A call whose lengths are checked is refused without a trace. -/
theorem run_tooLong {c : KeyCall} (h : c.TooLong) (st : Store) (clk : Clock) (junkTtl : UInt32)
    (junkPriority : UInt8) : c.run st clk junkTtl junkPriority = pure (none, st) := by
  have hlong : ¬maxValueLen < ([] : Bytes).length := by decide
  cases c with
  | put key data ttl ts priority =>
    have hput : st.put clk key data ttl ts priority = pure (false, st) := by
      rw [Store.put]
      split
      · rfl
      split
      · rfl
      split
      · rfl
      · next hk hd => exact absurd h (not_or.2 ⟨hk, hd⟩)
    rw [run, hput]
    rfl
  | get key out size =>
    have hk : maxKeyLen < key.bytes.length := h.resolve_right hlong
    rw [run, Store.get]
    rw [if_pos hk, ite_self]
  | getValue key =>
    have hk : maxKeyLen < key.bytes.length := h.resolve_right hlong
    have hget : st.getValue clk key = pure (none, st) := by
      rw [Store.getValue, Store.get]
      rw [if_pos hk, ite_self]
      rfl
    rw [run, hget]
    rfl
  | remove key =>
    have hk : maxKeyLen < key.bytes.length := h.resolve_right hlong
    have hremove : st.remove clk key junkTtl junkPriority = pure (false, st) := by
      rw [Store.remove]
      rw [if_pos hk, ite_self]
    rw [run, hremove]
    rfl
  | «exists» key =>
    have hk : maxKeyLen < key.bytes.length := h.resolve_right hlong
    have hexists : st.exists clk key = (false, st) := by
      rw [Store.exists]
      rw [if_pos hk, ite_self]
    rw [run, hexists]
    rfl

/-- The heap store refuses it as well. -/
theorem runHeap_tooLong {c : KeyCall} (h : c.TooLong) (hs : HeapStore) (now : UInt32) :
    c.runHeap hs now = (none, hs) := by
  have hlong : ¬maxValueLen < ([] : Bytes).length := by decide
  cases c with
  | put key data ttl ts priority =>
    have hput : hs.put now key data ttl ts priority = (false, hs) := by
      rw [HeapStore.put]
      split
      · rfl
      split
      · rfl
      · next hk hd => exact absurd h (not_or.2 ⟨hk, hd⟩)
    rw [runHeap, hput]
    rfl
  | get key out size =>
    have hk : maxKeyLen < key.bytes.length := h.resolve_right hlong
    rw [runHeap, HeapStore.get, if_pos hk]
  | getValue key =>
    have hk : maxKeyLen < key.bytes.length := h.resolve_right hlong
    rw [runHeap, HeapStore.get, if_pos hk]
    rfl
  | remove key =>
    have hk : maxKeyLen < key.bytes.length := h.resolve_right hlong
    rw [runHeap, HeapStore.remove, if_pos hk]
    rfl
  | «exists» key =>
    have hk : maxKeyLen < key.bytes.length := h.resolve_right hlong
    rw [runHeap, HeapStore.exists, if_pos hk]
    rfl

/-! ## Calls within the limits

The converse needs a store on which an accepted call leaves a trace; `sample` is one, with an expired
entry that a lookup takes out. -/

/-- A store with a file open on an empty segment, and one entry in its index. -/
def sample (key : Key) (e : IndexValue) : Store :=
  { Store.new 65536 4 .recent with
    valid := true
    activeFile := some ⟨0, 0, .readAppend⟩
    index := AList.insert key e ∅ }

theorem sample_valid (key : Key) (e : IndexValue) : (sample key e).valid = true := rfl

/-- A put within the limits is accepted. -/
theorem run_put {key data : Buf} (hkey : key.bytes.length ≤ maxKeyLen)
    (hdata : data.bytes.length ≤ maxValueLen) (ttl ts : UInt32) (priority : UInt8) (e : IndexValue)
    (clk : Clock) (fs : FileSystem) :
    (Prog.exec posix ((sample [] e).put clk key data ttl ts priority) fs).1.1 = true := by
  refine @Env.plain_exec _ _ (fun (x : Bool × Store) _ => x.1 = true) fs ?_
  have hroom : wrap32 (0 + data.bytes.length) + headerSize + commitSize < (65536 : UInt32).toNat := by
    rw [wrap32_of_lt (Nat.lt_of_le_of_lt (by omega) (show maxValueLen < 2 ^ 32 by decide))]
    have : maxValueLen + headerSize + commitSize < (65536 : UInt32).toNat := by decide
    omega
  have hrotate : (sample [] e).rotateSegmentIfNeeded clk data.bytes.length
      = pure (true, sample [] e) := if_pos hroom
  rw [Store.put, if_neg (by rw [sample_valid]; decide), if_neg (Nat.not_lt.2 hkey), if_neg (Nat.not_lt.2 hdata),
    hrotate]
  refine Env.wp_pure_bind ?_
  have hstream (w : Bytes) : Env.plain.Streams fs 0 w := ⟨fun _ _ _ _ _ _ _ => ⟨trivial, id⟩,
    fun _ _ _ _ => ⟨trivial, id⟩⟩
  have hstep {st : Store} {fs' : FileSystem} {w : Bytes} (bs : Bytes)
      (h : Streamed (sample [] e) ⟨0, 0, .readAppend⟩ fs w st fs') :=
    wp_append_streamed h (hstream _) (List.prefix_refl (fs.data 0 ++ (w ++ bs)))
  refine Env.wp_seq (hstep _ (.start rfl rfl rfl)) fun st1 fs1 h1 => ?_
  refine Env.wp_seq (hstep _ h1) fun st2 fs2 h2 => ?_
  refine Env.wp_seq (hstep _ h2) fun st3 fs3 h3 => ?_
  refine Env.wp_seq (hstep _ h3) fun st4 fs4 h4 => ?_
  refine Env.wp_seq (wp_flush_streamed h4 (hstream _) (List.prefix_refl _)) ?_
  rintro _ fs5 ⟨f, -, -, rfl, -⟩
  dsimp only
  rw [if_neg (by decide)]
  refine Env.wp_seq (Env.plain_wp _ _) fun x fs6 _ => ?_
  exact Env.wp_seq (Env.plain_wp _ _) fun _ _ _ => Env.wp_ret rfl

/-- A removal within the limits is accepted. -/
theorem run_remove {st : Store} (hvalid : st.valid = true) {key : Buf}
    (hkey : key.bytes.length ≤ maxKeyLen) (clk : Clock) (junkTtl : UInt32) (junkPriority : UInt8)
    (fs : FileSystem) : (Prog.exec posix (st.remove clk key junkTtl junkPriority) fs).1.1 = true := by
  refine @Env.plain_exec _ _ (fun (x : Bool × Store) _ => x.1 = true) fs ?_
  rw [Store.remove, if_neg (by rw [hvalid]; decide), if_neg (Nat.not_lt.2 hkey)]
  refine Env.wp_seq (Env.plain_wp _ _) fun _ _ _ => ?_
  refine Env.wp_seq (Env.plain_wp _ _) fun _ _ _ => ?_
  refine Env.wp_seq (Env.plain_wp _ _) fun _ _ _ => ?_
  refine Env.wp_seq (Env.plain_wp _ _) fun _ _ _ => ?_
  refine Env.wp_seq (Env.plain_wp _ _) fun _ _ _ => ?_
  exact Env.wp_seq (Env.plain_wp _ _) fun _ _ _ => Env.wp_ret rfl

/-- The index entry of a record with this TTL, stored at time zero. -/
def sampleEntry (ttl : Nat) : IndexValue := indexValue 0 0 0 ttl 0

/-- A clock that stands at two seconds. -/
def sampleClock : Clock := ⟨2, 0, 0⟩

theorem sample_lookup (key : Key) (e : IndexValue) : (sample key e).indexFind key = some e :=
  AList.lookup_insert _

theorem sample_expired (key : Key) :
    (sample key (sampleEntry 1)).isTtlExpired sampleClock.time (sampleEntry 1).timestamp
      (sampleEntry 1).ttl.toNat = true := rfl

/-- Reading an expired key drops it from the index. -/
theorem run_get {key : Buf} (hkey : key.bytes.length ≤ maxKeyLen) (out : Bool) (size : Nat) :
    (sample key.bytes (sampleEntry 1)).get sampleClock key out size
      = pure (none, (sample key.bytes (sampleEntry 1)).indexRemove key.bytes) := by
  rw [Store.get, if_neg (by rw [sample_valid]; decide), if_neg (Nat.not_lt.2 hkey),
    flushBuffer_nil rfl]
  rw [Prog.pure_eq_ret, Prog.ret_bind]
  dsimp only
  rw [sample_lookup]
  exact if_pos (sample_expired key.bytes)

theorem indexRemove_ne (key : Key) (e : IndexValue) : (sample key e).indexRemove key ≠ sample key e := by
  intro h
  have h1 := congrArg (fun st : Store => st.indexFind key) h
  rw [sample_lookup] at h1
  have h2 : ((sample key e).indexRemove key).indexFind key = none := AList.lookup_erase _ _
  cases h2.symm.trans h1

/-- **A call within the limits is not always refused without a trace.** -/
theorem exists_run_ne {c : KeyCall} (hc : ¬c.TooLong) :
    ∃ st clk, c.run st clk 0 0 ≠ pure (none, st) := by
  rw [TooLong, not_or, Nat.not_lt, Nat.not_lt] at hc
  obtain ⟨hkey, hvalue⟩ := hc
  -- the answer and the store of a run that is refused
  have refused {p : FsM (Answer × Store)} {st : Store} (h : p = pure (none, st)) (fs : FileSystem) :
      (Prog.exec posix p fs).1 = (none, st) := by rw [h]; rfl
  cases c with
  | put key data ttl ts priority =>
    change key.bytes.length ≤ maxKeyLen at hkey
    change data.bytes.length ≤ maxValueLen at hvalue
    refine ⟨sample [] (sampleEntry 0), sampleClock, fun h => ?_⟩
    have h1 := congrArg Prod.fst (refused h .empty)
    have h2 := run_put hkey hvalue ttl ts priority (sampleEntry 0) sampleClock .empty
    rw [run, Prog.exec_bind] at h1
    change ofBool _ = none at h1
    rw [h2] at h1
    cases h1
  | get key out size =>
    change key.bytes.length ≤ maxKeyLen at hkey
    refine ⟨sample key.bytes (sampleEntry 1), sampleClock, fun h => ?_⟩
    have h1 := congrArg Prod.snd (refused h .empty)
    rw [run, run_get hkey] at h1
    exact indexRemove_ne _ _ h1
  | getValue key =>
    change key.bytes.length ≤ maxKeyLen at hkey
    refine ⟨sample key.bytes (sampleEntry 1), sampleClock, fun h => ?_⟩
    have h1 := congrArg Prod.snd (refused h .empty)
    rw [run, Store.getValue, run_get hkey] at h1
    exact indexRemove_ne _ _ h1
  | remove key =>
    change key.bytes.length ≤ maxKeyLen at hkey
    refine ⟨sample [] (sampleEntry 0), sampleClock, fun h => ?_⟩
    have h1 := congrArg Prod.fst (refused h .empty)
    have h2 := run_remove (sample_valid [] (sampleEntry 0)) hkey sampleClock 0 0 .empty
    rw [run, Prog.exec_bind] at h1
    change ofBool _ = none at h1
    rw [h2] at h1
    cases h1
  | «exists» key =>
    change key.bytes.length ≤ maxKeyLen at hkey
    refine ⟨sample key.bytes (sampleEntry 0), sampleClock, fun h => ?_⟩
    have h1 := congrArg Prod.fst (refused h .empty)
    have h2 : ((sample key.bytes (sampleEntry 0)).exists sampleClock key).1 = true := by
      rw [Store.exists, if_neg (by rw [sample_valid]; decide), if_neg (Nat.not_lt.2 hkey),
        sample_lookup]
      rfl
    change ofBool _ = none at h1
    rw [h2] at h1
    cases h1

/-- A heap store with one entry. -/
def sampleHeap (key : Key) : HeapStore := { HeapStore.new with data := AList.insert key ⟨[], 0, 0⟩ ∅ }

/-- The same of the heap store. -/
theorem exists_runHeap_ne {c : KeyCall} (hc : ¬c.TooLong) :
    ∃ hs now, c.runHeap hs now ≠ (none, hs) := by
  rw [TooLong, not_or] at hc
  obtain ⟨hkey, hvalue⟩ := hc
  have hfind (key : Key) : (sampleHeap key).data.lookup key = some ⟨[], 0, 0⟩ :=
    AList.lookup_insert _
  suffices h : (c.runHeap (sampleHeap c.key.bytes) 0).1 ≠ none from
    ⟨sampleHeap c.key.bytes, 0, fun he => h (congrArg Prod.fst he)⟩
  cases c with
  | put key data ttl ts priority =>
    intro h
    rw [runHeap, HeapStore.put, if_neg (by exact hkey), if_neg (by exact hvalue)] at h
    cases h
  | get key out size =>
    change ((sampleHeap key.bytes).get 0 key out size.toNat).1 ≠ none
    rw [HeapStore.get, if_neg (by exact hkey), hfind]
    exact Option.some_ne_none _
  | getValue key =>
    change ((sampleHeap key.bytes).get 0 key true maxValueLen).1.map _ ≠ none
    rw [HeapStore.get, if_neg (by exact hkey), hfind]
    exact Option.some_ne_none _
  | remove key =>
    intro h
    rw [runHeap, HeapStore.remove, if_neg (by exact hkey)] at h
    cases h
  | «exists» key =>
    change ofBool ((sampleHeap key.bytes).exists key) ≠ none
    rw [HeapStore.exists, if_neg (by exact hkey), hfind]
    exact Option.some_ne_none _

end KeyCall

/-! ## The overloads -/

/-- The overloads of `FileStore.h`, named by what they take; those `HeapStore.h` has too are
`inHeap`. -/
inductive Overload
  | putCstr (key : CStr) (data : Span) (ttl ts : UInt32) (priority : UInt8)
  | putCstrCstr (key data : CStr) (ttl ts : UInt32) (priority : UInt8)
  | putVec (key : Buf) (data : Span) (ttl ts : UInt32) (priority : UInt8)
  | putVecVec (key data : Buf) (ttl ts : UInt32) (priority : UInt8)
  | putCstrStr (key : CStr) (data : Bytes) (ttl ts : UInt32) (priority : UInt8)
  | putStrStr (key data : Bytes) (ttl ts : UInt32) (priority : UInt8)
  | getCstr (key : CStr) (out : Bool) (size : UInt16)
  | getVec (key : Buf) (out : Bool) (size : UInt16)
  | getVecVec (key : Buf)
  | getCstrStr (key : CStr)
  | getStrStr (key : Bytes)
  | removeCstr (key : CStr)
  | removeVec (key : Buf)
  | existsCstr (key : CStr)
  | existsVec (key : Buf)

namespace Overload

/-- Does `HeapStore.h` have the overload? -/
def inHeap : Overload → Bool
  | .putCstr .. | .putVec .. | .putVecVec .. | .getCstr .. | .getVec .. | .getVecVec _
  | .removeCstr _ | .removeVec _ | .existsCstr _ | .existsVec _ => true
  | .putCstrCstr .. | .putCstrStr .. | .putStrStr .. | .getCstrStr _ | .getStrStr _ => false

/-- The call the overload makes. -/
def passed : Overload → KeyCall
  | .putCstr key data ttl ts priority => .put (Buf.at key.chars).asKey data.buf ttl ts priority
  | .putCstrCstr key data ttl ts priority =>
    .put (Buf.at key.chars).asKey (Buf.at data.chars).asValue ttl ts priority
  | .putVec key data ttl ts priority => .put key.asKey data.buf ttl ts priority
  | .putVecVec key data ttl ts priority => .put key.asKey data.asValue ttl ts priority
  | .putCstrStr key data ttl ts priority =>
    .put (Buf.at key.chars).asKey (Buf.at data).asValue ttl ts priority
  | .putStrStr key data ttl ts priority =>
    .put (Buf.at key).asKey (Buf.at data).asValue ttl ts priority
  | .getCstr key out size => .get (Buf.at key.chars).asKey out size
  | .getVec key out size => .get key.asKey out size
  | .getVecVec key => .getValue key.asKey
  | .getCstrStr key => .getValue (Buf.at key.chars).asKey
  | .getStrStr key => .getValue (Buf.at key).asKey
  | .removeCstr key => .remove (Buf.at key.chars).asKey
  | .removeVec key => .remove key.asKey
  | .existsCstr key => .exists (Buf.at key.chars).asKey
  | .existsVec key => .exists key.asKey

/-- The call on the whole key and the whole value. -/
def meant : Overload → KeyCall
  | .putCstr key data ttl ts priority => .put (.at key.chars) data.buf ttl ts priority
  | .putCstrCstr key data ttl ts priority => .put (.at key.chars) (.at data.chars) ttl ts priority
  | .putVec key data ttl ts priority => .put key data.buf ttl ts priority
  | .putVecVec key data ttl ts priority => .put key data ttl ts priority
  | .putCstrStr key data ttl ts priority => .put (.at key.chars) (.at data) ttl ts priority
  | .putStrStr key data ttl ts priority => .put (.at key) (.at data) ttl ts priority
  | .getCstr key out size => .get (.at key.chars) out size
  | .getVec key out size => .get key out size
  | .getVecVec key => .getValue key
  | .getCstrStr key => .getValue (.at key.chars)
  | .getStrStr key => .getValue (.at key)
  | .removeCstr key => .remove (.at key.chars)
  | .removeVec key => .remove key
  | .existsCstr key => .exists (.at key.chars)
  | .existsVec key => .exists key

/-- The lengths modulo the widths of the parameters are too long. -/
def NarrowTooLong (o : Overload) : Prop :=
  maxKeyLen < o.meant.key.bytes.length % 2 ^ 8 ∨ maxValueLen < o.meant.value.bytes.length % 2 ^ 16

/-- An overload passes on the key with its length cut to a `uint8_t`. -/
theorem key_passed (o : Overload) : o.passed.key = o.meant.key.asKey := by
  cases o <;> rfl

/-- An overload passes on the value with its length cut to a `uint16_t`. -/
theorem value_passed (o : Overload) : o.passed.value = o.meant.value.asValue := by
  cases o with
  | putCstr key data | putVec key data => exact (Buf.asValue_eq data.lt).symm
  | putCstrCstr | putVecVec | putCstrStr | putStrStr | getCstr | getVec | getVecVec | getCstrStr
  | getStrStr | removeCstr | removeVec | existsCstr | existsVec => rfl

/-- What is too long when it is passed on is refused. -/
theorem narrowTooLong_iff (o : Overload) : o.NarrowTooLong ↔ o.passed.TooLong := by
  rw [KeyCall.TooLong, key_passed, value_passed, Buf.length_asKey, Buf.length_asValue]
  exact Iff.rfl

/-- Within the widths the overload passes on its arguments whole. -/
theorem passed_eq {o : Overload} (h : ¬o.meant.TooLong) : o.passed = o.meant := by
  rw [KeyCall.TooLong, not_or, Nat.not_lt, Nat.not_lt] at h
  obtain ⟨hkey, hvalue⟩ := h
  have hkey8 : o.meant.key.bytes.length < 2 ^ 8 := Nat.lt_of_le_of_lt hkey (by decide)
  have hvalue16 : o.meant.value.bytes.length < 2 ^ 16 := Nat.lt_of_le_of_lt hvalue (by decide)
  have hk : o.passed.key = o.meant.key := o.key_passed.trans (Buf.asKey_eq hkey8)
  have hv : o.passed.value = o.meant.value := o.value_passed.trans (Buf.asValue_eq hvalue16)
  cases o with
  | putCstr | putCstrCstr | putVec | putVecVec | putCstrStr | putStrStr =>
    exact congrArg₂ (KeyCall.put · · _ _ _) hk hv
  | getCstr | getVec => exact congrArg (KeyCall.get · _ _) hk
  | getVecVec | getCstrStr | getStrStr => exact congrArg KeyCall.getValue hk
  | removeCstr | removeVec => exact congrArg KeyCall.remove hk
  | existsCstr | existsVec => exact congrArg KeyCall.exists hk

/-- What the limits demand of an overload of the file store: a key or a value that is too long is
refused without a trace, and what is passed on does what the call on the whole arguments does. -/
def RespectsLimits (o : Overload) : Prop :=
  (o.meant.TooLong → ∀ st clk junkTtl junkPriority,
    o.passed.run st clk junkTtl junkPriority = pure (none, st)) ∧
  ∀ st clk junkTtl junkPriority,
    o.passed.run st clk junkTtl junkPriority = o.meant.run st clk junkTtl junkPriority

/-- What the limits demand of an overload of the heap store. -/
def RespectsLimitsHeap (o : Overload) : Prop :=
  (o.meant.TooLong → ∀ hs now, o.passed.runHeap hs now = (none, hs)) ∧
  ∀ hs now, o.passed.runHeap hs now = o.meant.runHeap hs now

/-- **The overloads respect the limits exactly up to the width of the lengths**: a key or a value
that is too long is refused if and only if its length is still too long modulo the width of the
parameter it is passed in. -/
theorem respectsLimits_iff (o : Overload) :
    (o.RespectsLimits ↔ (o.meant.TooLong → o.NarrowTooLong)) ∧
      (o.inHeap = true → (o.RespectsLimitsHeap ↔ (o.meant.TooLong → o.NarrowTooLong))) := by
  refine ⟨⟨fun h hlong => ?_, fun h => ⟨fun hlong => ?_, fun st clk t p => ?_⟩⟩,
    fun _ => ⟨fun h hlong => ?_, fun h => ⟨fun hlong => ?_, fun hs now => ?_⟩⟩⟩
  · by_contra hnarrow
    obtain ⟨st, clk, hne⟩ := KeyCall.exists_run_ne (fun hp => hnarrow (o.narrowTooLong_iff.2 hp))
    exact hne (h.1 hlong st clk 0 0)
  · exact KeyCall.run_tooLong (o.narrowTooLong_iff.1 (h hlong))
  · by_cases hlong : o.meant.TooLong
    · rw [KeyCall.run_tooLong hlong, KeyCall.run_tooLong (o.narrowTooLong_iff.1 (h hlong))]
    · rw [passed_eq hlong]
  · by_contra hnarrow
    obtain ⟨hs, now, hne⟩ :=
      KeyCall.exists_runHeap_ne (fun hp => hnarrow (o.narrowTooLong_iff.2 hp))
    exact hne (h.1 hlong hs now)
  · exact KeyCall.runHeap_tooLong (o.narrowTooLong_iff.1 (h hlong))
  · by_cases hlong : o.meant.TooLong
    · rw [KeyCall.runHeap_tooLong hlong, KeyCall.runHeap_tooLong (o.narrowTooLong_iff.1 (h hlong))]
    · rw [passed_eq hlong]

/-- A new store under the prefix `a`. -/
def initSample : FsM Store := do
  let (_, st) ← (Store.new 65536 4 .recent).init ['a'] false 0 0
  pure st

/-- The files and the store after one key has been put. -/
def putSample : FsM Store := do
  let st ← initSample
  let (_, st) ← st.put ⟨0, 0, 0⟩ (.at [97]) (.at [1]) 0 0 0
  pure st

/-- `get` on a `std::vector` of 257 bytes reads the value of the key that is its first byte. -/
theorem getVecVec_reads_other_key :
    (Overload.getVecVec (.at (97 :: List.replicate 256 0))).meant.TooLong ∧
    ((Prog.exec posix (do
      let st ← putSample
      (Overload.getVecVec (.at (97 :: List.replicate 256 0))).passed.run st ⟨0, 0, 0⟩ 0 0)
      .empty).1.1 = some ([1], 1)) ∧
    ¬∀ o : Overload, o.RespectsLimits := by
  have hlong : (Overload.getVecVec (.at (97 :: List.replicate 256 0))).meant.TooLong := by
    decide +kernel
  have hrun : (Prog.exec posix (do
      let st ← putSample
      (Overload.getVecVec (.at (97 :: List.replicate 256 0))).passed.run st ⟨0, 0, 0⟩ 0 0)
      .empty).1.1 = some ([1], 1) := by decide +kernel
  refine ⟨hlong, hrun, fun h => ?_⟩
  rw [Prog.exec_bind, (h _).1 hlong] at hrun
  cases hrun

end Overload

end MicroStore
