import MicroStore.HeapExpiring
import MicroStore.TieredBlocking

/-!
# `TypedStore.h`: typed keys and values over a store

`TypedStore` encodes the keys and values it is given and decodes what the store below answers.  Its
iterator decodes into one entry, which it keeps from one position to the next, and does not ask whether
the codecs succeeded.  So what it yields is what `get` answers only where they do.

## What is here

* `OutCodec` — a codec with what a failed decoding leaves in its output argument, which in C++ may be
  anything.
* `TypedStore.get`, `TypedStore.load`, `TypedStore.iterate` — the functions of the source.  The entry
  that is decoded into goes along from position to position.
* `TypedStore.Decodes`, `TypedStore.Unaliased`, `TypedStore.KeysRoundTrip` — the conditions: of what is
  stored, of keys that are too long for a `uint8_t`, and of the codec.
* `TypedStore.Agree` — the entries yielded are what `get` answers.
* `agree_of_decodes`, `decodes_of_agree` — the two directions, for any codecs and for codecs that
  round-trip.
* `Serves` — what is needed of the store below: it answers from a list of raw records and does not
  change.  Every heap store that operations lead to does so (`HeapStore.Reached.serves`), and every
  healthy file store (`Store.Healthy.serves`).
* `typed_iteration_agrees` — the result over both.

The other operations, and the map a typed store is, are in `TypedMap.lean`.
-/

set_option autoImplicit false

namespace MicroStore

/-- A `Codec` whose `decode` has an out parameter.  What a decode that fails leaves in it is up to the
codec. -/
structure OutCodec (α : Type) extends Codec α where
  /-- What is in the output after a decoding that fails, given the bytes and what was there. -/
  leaves : Bytes → α → α

/-- `decode(data, out)`: the result, and `out` afterwards. -/
def OutCodec.decodeInto {α : Type} (c : OutCodec α) (data : Bytes) (out : α) : Bool × α :=
  match c.decode data with
  | some a => (true, a)
  | none => (false, c.leaves data out)

/-- The codecs of a `TypedStore`. -/
structure TypedStore (κ υ : Type) where
  /-- The codec of the keys. -/
  keyCodec : OutCodec κ
  /-- The codec of the values. -/
  valueCodec : OutCodec υ

namespace TypedStore

variable {κ υ : Type} (ty : TypedStore κ υ)

/-- `get`. -/
def get (key : κ) : StoreM (Option υ) := do
  let valid ← storeCall .isValid
  if !valid then pure none
  else
    let raw ← storeCall (.get (ty.keyCodec.encode key))
    match raw with
    | none => pure none
    | some raw => pure (ty.valueCodec.decode raw)

/-- `iterator::load`, for the record at the position. -/
def load (current : κ × υ) (raw : Bytes × Bytes) : κ × υ :=
  ((ty.keyCodec.decodeInto raw.1 current.1).2, (ty.valueCodec.decodeInto raw.2 current.2).2)

/-- The entries from a position on. -/
def loadLoop : κ × υ → List (Bytes × Bytes) → List (κ × υ)
  | _, [] => []
  | current, raw :: raws => ty.load current raw :: loadLoop (ty.load current raw) raws

/-- A full iteration, from `begin()` to `end()`.  `junk` is what `current_` holds at the start. -/
def iterate (junk : κ × υ) : StoreM (List (κ × υ)) := do
  let raws ← storeCall .iterate
  pure (ty.loadLoop junk raws)

/-! ## What the store holds

The store below takes the length of a key as a `uint8_t`, so a long key is looked up under the
beginning of it.  `narrow` is what is looked up. -/

/-- The bytes that are left of an encoded key when its length goes into a `uint8_t`. -/
def narrow (k : Bytes) : Bytes := (Buf.at k).asKey.bytes

/-- A key that fits is looked up whole. -/
theorem narrow_eq {k : Bytes} (h : k.length < 2 ^ 8) : narrow k = k := by
  rw [narrow, @Buf.asKey_eq (.at k) h, Buf.bytes]

/-- Every key of the store is the encoding of the key it decodes to, and every value decodes. -/
def Decodes (raws : List (Bytes × Bytes)) : Prop :=
  ∀ raw ∈ raws, (∃ k, ty.keyCodec.decode raw.1 = some k ∧ ty.keyCodec.encode k = raw.1) ∧
    (ty.valueCodec.decode raw.2).isSome

/-- No key whose encoding is too long for its length to be passed on finds a key of the store. -/
def Unaliased (raws : List (Bytes × Bytes)) : Prop :=
  ∀ k, ty.keyCodec.decode (ty.keyCodec.encode k) = some k → 2 ^ 8 ≤ (ty.keyCodec.encode k).length →
    narrow (ty.keyCodec.encode k) ∉ raws.map Prod.fst

/-- Keys decode to themselves, and the length of an encoded key fits a `uint8_t`. -/
structure KeysRoundTrip : Prop where
  /-- An encoded key decodes to itself. -/
  decode_encode : ∀ k, ty.keyCodec.decode (ty.keyCodec.encode k) = some k
  /-- Its length fits a `uint8_t`. -/
  length_lt : ∀ k, (ty.keyCodec.encode k).length < 2 ^ 8

variable {ty} {raws raws' : List (Bytes × Bytes)} {current : κ × υ} {k : κ}

/-! ## What is loaded

One position after another.  Where a record decodes, what was decoded before does not show. -/

/-- A record that decodes. -/
theorem load_eq {raw : Bytes × Bytes} {v : υ} (hk : ty.keyCodec.decode raw.1 = some k)
    (hv : ty.valueCodec.decode raw.2 = some v) : ty.load current raw = (k, v) := by
  rw [load, OutCodec.decodeInto, OutCodec.decodeInto, hk, hv]

/-- The key of one whose key decodes. -/
theorem fst_load {raw : Bytes × Bytes} (hk : ty.keyCodec.decode raw.1 = some k) :
    (ty.load current raw).1 = k := by
  rw [load, OutCodec.decodeInto, hk]

/-- Loading in two parts. -/
theorem loadLoop_append : ∃ current', ty.loadLoop current (raws ++ raws')
    = ty.loadLoop current raws ++ ty.loadLoop current' raws' := by
  induction raws generalizing current with
  | nil => exact ⟨current, rfl⟩
  | cons raw raws ih =>
    obtain ⟨current', h⟩ := @ih (ty.load current raw)
    exact ⟨current', congrArg _ h⟩

/-- A key that decodes is yielded. -/
theorem mem_loadLoop {raw : Bytes × Bytes} (hraw : raw ∈ raws)
    (hk : ty.keyCodec.decode raw.1 = some k) : k ∈ (ty.loadLoop current raws).map Prod.fst := by
  induction raws generalizing current with
  | nil => cases hraw
  | cons raw' raws ih =>
    rw [loadLoop, List.map_cons]
    rcases List.mem_cons.1 hraw with rfl | hraw
    · rw [fst_load hk]
      exact List.mem_cons_self
    · exact List.mem_cons_of_mem _ (ih hraw)

/-- Where everything decodes, an entry is what its record decodes to. -/
theorem of_mem_loadLoop (h : ty.Decodes raws) {p : κ × υ} (hp : p ∈ ty.loadLoop current raws) :
    ∃ raw ∈ raws, ty.keyCodec.encode p.1 = raw.1 ∧ ty.valueCodec.decode raw.2 = some p.2 := by
  induction raws generalizing current with
  | nil => cases hp
  | cons raw raws ih =>
    obtain ⟨⟨k, hk, hback⟩, hsome⟩ := h raw List.mem_cons_self
    obtain ⟨v, hv⟩ := Option.isSome_iff_exists.1 hsome
    rw [loadLoop, load_eq hk hv] at hp
    rcases List.mem_cons.1 hp with rfl | hp
    · exact ⟨raw, List.mem_cons_self, hback, hv⟩
    · obtain ⟨raw', hraw, hfound⟩ := ih (fun raw' hraw => h raw' (List.mem_cons_of_mem _ hraw)) hp
      exact ⟨raw', List.mem_cons_of_mem _ hraw, hfound⟩

/-- The keys that are yielded are those that are stored. -/
theorem map_encode_loadLoop (h : ty.Decodes raws) :
    (ty.loadLoop current raws).map (fun p => ty.keyCodec.encode p.1) = raws.map Prod.fst := by
  induction raws generalizing current with
  | nil => rfl
  | cons raw raws ih =>
    obtain ⟨⟨k, hk, hback⟩, -⟩ := h raw List.mem_cons_self
    rw [loadLoop, List.map_cons, List.map_cons, fst_load hk, hback,
      ih fun raw' hraw => h raw' (List.mem_cons_of_mem _ hraw)]

/-! ## Agreement

Two things are asked: that every entry is what `get` answers for its key, and that every key that
`get` finds is yielded once.  The second is asked of keys that decode to themselves, since a `get`
encodes and an iteration decodes. -/

/-- What `get` answers when the store holds these records. -/
def Gets (ty : TypedStore κ υ) (raws : List (Bytes × Bytes)) (got : κ → Option υ) : Prop :=
  ∀ k v, got k = some v ↔
    ∃ value, (narrow (ty.keyCodec.encode k), value) ∈ raws ∧ ty.valueCodec.decode value = some v

/-- The entries yielded are what `get` answers, and all there is that decodes to itself. -/
def Agree [DecidableEq κ] (ty : TypedStore κ υ) (entries : List (κ × υ)) (got : κ → Option υ) : Prop :=
  (∀ p ∈ entries, got p.1 = some p.2) ∧
    ∀ k, (got k).isSome → ty.keyCodec.decode (ty.keyCodec.encode k) = some k →
      (entries.map Prod.fst).count k = 1

section agreement

variable [DecidableEq κ] {got : κ → Option υ}

/-- Where everything decodes, the iteration agrees with `get`. -/
theorem agree_of_decodes (hnodup : (raws.map Prod.fst).Nodup)
    (hshort : ∀ raw ∈ raws, raw.1.length ≤ maxKeyLen) (hgot : ty.Gets raws got) (h : ty.Decodes raws)
    (hun : ty.Unaliased raws) : ty.Agree (ty.loadLoop current raws) got := by
  have hinj : ((ty.loadLoop current raws).map Prod.fst).Nodup := by
    refine List.Nodup.of_map ty.keyCodec.encode ?_
    rw [List.map_map]
    exact (map_encode_loadLoop h).symm ▸ hnodup
  have narrowed {raw : Bytes × Bytes} (hraw : raw ∈ raws) : narrow raw.1 = raw.1 :=
    narrow_eq (Nat.lt_of_le_of_lt (hshort raw hraw) (by decide))
  refine ⟨fun p hp => ?_, fun k hsome hk => ?_⟩
  · obtain ⟨raw, hraw, hback, hv⟩ := of_mem_loadLoop h hp
    refine (hgot p.1 p.2).2 ⟨raw.2, ?_, hv⟩
    rw [hback, narrowed hraw]
    exact hraw
  · obtain ⟨v, hv⟩ := Option.isSome_iff_exists.1 hsome
    obtain ⟨value, hmem, -⟩ := (hgot k v).1 hv
    have hlt : (ty.keyCodec.encode k).length < 2 ^ 8 := by
      by_contra hge
      exact hun k hk (Nat.not_lt.1 hge) (List.mem_map_of_mem hmem)
    rw [narrow_eq hlt] at hmem
    exact List.count_eq_one_of_mem hinj (mem_loadLoop hmem hk)

/-- With codecs that make a round trip, the iteration agrees with `get` only if everything decodes. -/
theorem decodes_of_agree (hnodup : (raws.map Prod.fst).Nodup) (hgot : ty.Gets raws got)
    (hty : ty.KeysRoundTrip) (h : ty.Agree (ty.loadLoop current raws) got) : ty.Decodes raws := by
  intro raw hraw
  obtain ⟨xs, ys, rfl⟩ := List.append_of_mem hraw
  obtain ⟨current', hsplit⟩ := @loadLoop_append _ _ ty xs (raw :: ys) current
  rw [hsplit, loadLoop] at h
  generalize hp : ty.load current' raw = p at h
  obtain ⟨hgets, hcount⟩ := h
  have hget : got p.1 = some p.2 := hgets p (List.mem_append_right _ List.mem_cons_self)
  have hone := hcount p.1 (by rw [hget]; rfl) (hty.decode_encode p.1)
  obtain ⟨value, hmem, hvalue⟩ := (hgot p.1 p.2).1 hget
  rw [narrow_eq (hty.length_lt p.1)] at hmem
  rw [List.map_append, List.count_append, List.map_cons, List.count_cons_self] at hone
  -- the record that `get` finds is the one at this position, or its key would be yielded twice
  have hfound : (ty.keyCodec.encode p.1, value) = raw := by
    rcases List.mem_append.1 hmem with hx | hx
    · have hk : p.1 ∈ (ty.loadLoop current xs).map Prod.fst :=
        mem_loadLoop hx (hty.decode_encode p.1)
      have hpos := List.count_pos_iff.2 hk
      omega
    rcases List.mem_cons.1 hx with hx | hx
    · exact hx
    · have hk : p.1 ∈ (ty.loadLoop (ty.load current' raw) ys).map Prod.fst :=
        mem_loadLoop hx (hty.decode_encode p.1)
      have hpos := List.count_pos_iff.2 hk
      rw [hp] at hpos
      omega
  rw [← hfound]
  exact ⟨⟨p.1, hty.decode_encode p.1, rfl⟩, by rw [hvalue]; rfl⟩

end agreement

end TypedStore

/-! ## The store below -/

/-- The store answers from these records, and answering changes nothing. -/
structure Serves {ε σ : Type} (B : Backing ε σ) (e : ε) (s : σ) (raws : List (Bytes × Bytes)) : Prop where
  /-- The store is valid. -/
  isValid : B.handle e .isValid s = (true, s)
  /-- It yields these records. -/
  iterate : B.handle e .iterate s = (raws, s)
  /-- It finds a key under its narrow form, and nothing else. -/
  get : ∀ k, ∃ r : Option Bytes, B.handle e (.get k) s = (r, s) ∧
    ∀ value, r = some value ↔ (TypedStore.narrow k, value) ∈ raws
  /-- No key is there twice. -/
  nodup : (raws.map Prod.fst).Nodup
  /-- No key is too long. -/
  short : ∀ raw ∈ raws, raw.1.length ≤ maxKeyLen

namespace TypedStore

variable {κ υ ε σ : Type} (ty : TypedStore κ υ) {B : Backing ε σ} {e : ε} {s : σ}
  {raws : List (Bytes × Bytes)}

/-- A full iteration agrees with the gets that follow it. -/
def AgreesOn [DecidableEq κ] (B : Backing ε σ) (e : ε) (s : σ) (junk : κ × υ) : Prop :=
  let y := B.exec e (ty.iterate junk) s
  ty.Agree y.1 fun k => (B.exec e (ty.get k) y.2).1

/-- What an iteration yields. -/
theorem exec_iterate (h : Serves B e s raws) (junk : κ × υ) :
    B.exec e (ty.iterate junk) s = (ty.loadLoop junk raws, s) := by
  show ((fun y : List (Bytes × Bytes) × σ => (ty.loadLoop junk y.1, y.2)) (B.handle e .iterate s)) = _
  rw [h.iterate]

/-- What the gets answer. -/
theorem gets_of_serves (h : Serves B e s raws) : ty.Gets raws fun k => (B.exec e (ty.get k) s).1 := by
  intro k v
  obtain ⟨r, hr, hmem⟩ := h.get (ty.keyCodec.encode k)
  have hexec : (B.exec e (ty.get k) s).1 = r.bind ty.valueCodec.decode := by
    rw [Backing.exec, get, Prog.exec_bind]
    show (Prog.exec (B.handle e) (if !(B.handle e .isValid s).1 then _ else _)
      (B.handle e .isValid s).2).1 = _
    rw [h.isValid]
    show (Prog.exec (B.handle e) (match (B.handle e (.get (ty.keyCodec.encode k)) s).1 with
      | none => pure none
      | some raw => pure (ty.valueCodec.decode raw)) (B.handle e (.get (ty.keyCodec.encode k)) s).2).1 = _
    rw [hr]
    cases r <;> rfl
  show (B.exec e (ty.get k) s).1 = some v ↔ _
  rw [hexec]
  refine Option.bind_eq_some_iff.trans (exists_congr fun value => and_congr_left fun _ => hmem value)

/-- Over a store that answers from these records, iteration and `get` agree if everything decodes, and, if
the key codec makes a round trip, only then. -/
theorem agreesOn_iff [DecidableEq κ] (h : Serves B e s raws) (junk : κ × υ) :
    (ty.Decodes raws → ty.Unaliased raws → ty.AgreesOn B e s junk) ∧
      (ty.KeysRoundTrip → (ty.AgreesOn B e s junk ↔ ty.Decodes raws)) := by
  have hagree : ty.AgreesOn B e s junk ↔
      ty.Agree (ty.loadLoop junk raws) fun k => (B.exec e (ty.get k) s).1 := by
    rw [AgreesOn, exec_iterate ty h]
  rw [hagree]
  have hgot := ty.gets_of_serves h
  refine ⟨agree_of_decodes h.nodup h.short hgot, fun hty => ⟨decodes_of_agree h.nodup hgot hty, ?_⟩⟩
  exact fun hd => agree_of_decodes h.nodup h.short hgot hd fun k _ hlong =>
    absurd (hty.length_lt k) (Nat.not_lt.2 hlong)

end TypedStore

/-! ## A heap store below

Its keys are never too long, and reading erases only what has expired. -/

namespace HeapStore

/-- The stores that the operations lead to. -/
inductive Reached : HeapStore → Prop
  | new : Reached .new
  | put {hs : HeapStore} (h : Reached hs) (now : UInt32) (key data : Buf) (ttl ts : UInt32)
      (priority : UInt8) : Reached (hs.put now key data ttl ts priority).2
  | get {hs : HeapStore} (h : Reached hs) (now : UInt32) (key : Buf) (out : Bool) (size : Nat) :
      Reached (hs.get now key out size).2
  | remove {hs : HeapStore} (h : Reached hs) (key : Buf) : Reached (hs.remove key).2
  | clear {hs : HeapStore} (h : Reached hs) : Reached hs.clear
  | setTtlSecs {hs : HeapStore} (h : Reached hs) (ttl : UInt32) : Reached (hs.setTtlSecs ttl)
  | setMaxRecs {hs : HeapStore} (h : Reached hs) (maxRecs : UInt32) : Reached (hs.setMaxRecs maxRecs)

/-- The keys and values are within the limits. -/
def Limited (m : AList fun _ : Key => HeapEntry) : Prop :=
  ∀ k e, m.lookup k = some e → k.length ≤ maxKeyLen ∧ e.value.length ≤ maxValueLen

/-- Removing keeps keys short. -/
theorem Limited.erase {m : AList fun _ : Key => HeapEntry} (h : Limited m) (k : Key) :
    Limited (m.erase k) := by
  intro k' e he
  by_cases hk : k' = k
  · rw [hk, AList.lookup_erase] at he
    cases he
  · rw [AList.lookup_erase_ne hk] at he
    exact h k' e he

/-- So does eviction. -/
theorem Limited.evictLoop {maxRecs fuel : Nat} {m : AList fun _ : Key => HeapEntry} (h : Limited m) :
    Limited (HeapStore.evictLoop maxRecs fuel m) := by
  induction fuel generalizing m with
  | zero => exact h
  | succ fuel ih =>
    rw [HeapStore.evictLoop]
    split
    · exact h
    split
    · exact h
    · exact ih (h.erase _)

/-- So every store that operations lead to has short keys. -/
theorem Reached.limited {hs : HeapStore} (h : hs.Reached) : Limited hs.data := by
  induction h with
  | new => exact fun k e he => by cases he
  | @put hs h now key data ttl ts priority ih =>
    rw [HeapStore.put]
    split
    · exact ih
    split
    · exact ih
    next hkey hdata =>
    have hsweep : Limited (hs.sweep now).data := by
      intro k e he
      rw [lookup_sweep] at he
      exact ih k e (Option.filter_eq_some_iff.1 he).1
    have inserted {m : AList fun _ : Key => HeapEntry} (hm : Limited m) :
        Limited (m.insert key.bytes ⟨data.bytes, ts, ttl⟩) := by
      intro k e he
      by_cases hk : k = key.bytes
      · subst hk
        rw [AList.lookup_insert] at he
        obtain rfl := Option.some.inj he
        exact ⟨Nat.not_lt.1 hkey, Nat.not_lt.1 hdata⟩
      · rw [AList.lookup_insert_ne hk] at he
        exact hm k e he
    dsimp only
    refine inserted ?_
    split
    · exact hsweep.evictLoop
    · exact hsweep
  | get h now key out size ih =>
    rw [HeapStore.get]
    split
    · exact ih
    split
    · exact ih
    split
    · exact ih.erase _
    · exact ih
  | remove h key ih =>
    rw [HeapStore.remove]
    split
    · exact ih
    · exact ih.erase _
  | clear h ih => exact fun k e he => by cases he
  | setTtlSecs h ttl ih => exact ih
  | setMaxRecs h maxRecs ih => exact ih

/-- No entry has expired. -/
def Fresh (hs : HeapStore) (now : UInt32) : Prop :=
  ∀ k e, hs.data.lookup k = some e → hs.expired now e = false

/-- The keys and values, in the order of the keys. -/
def contents (hs : HeapStore) : List (Bytes × Bytes) :=
  (hs.data.entries.insertionSort fun a b => ¬b.1 < a.1).map fun it => (it.1, it.2.value)

/-- The contents are the map. -/
theorem mem_contents {hs : HeapStore} {k v : Bytes} :
    (k, v) ∈ hs.contents ↔ ∃ e, hs.data.lookup k = some e ∧ e.value = v := by
  rw [contents, List.mem_map]
  constructor
  · rintro ⟨⟨k', e⟩, hit, he⟩
    cases he
    exact ⟨e, AList.mem_lookup_iff.2 ((List.perm_insertionSort _ _).mem_iff.1 hit), rfl⟩
  · rintro ⟨e, he, rfl⟩
    exact ⟨⟨k, e⟩, (List.perm_insertionSort _ _).mem_iff.2 (AList.mem_lookup_iff.1 he), rfl⟩

/-- A heap store without expired entries answers from its contents. -/
theorem Reached.serves {hs : HeapStore} (h : hs.Reached) {now : UInt32} (hfresh : hs.Fresh now) :
    Serves heapBacking now hs hs.contents where
  isValid := rfl
  iterate := rfl
  get k := by
    refine ⟨((hs.get now (Buf.at k).asKey true maxValueLen).1.map fun r => r.1.take r.2), ?_, fun v => ?_⟩
    · refine Prod.ext rfl ?_
      show (hs.get now (Buf.at k).asKey true maxValueLen).2 = hs
      rw [HeapStore.get]
      split
      · rfl
      split
      · rfl
      · next e he =>
        rw [hfresh _ e he]
        rfl
    · rw [mem_contents, HeapStore.get, TypedStore.narrow]
      split
      · next hlong =>
        refine iff_of_false (by rintro ⟨⟩) ?_
        rintro ⟨e, he, -⟩
        exact absurd (h.limited _ e he).1 (Nat.not_le.2 hlong)
      split
      · next he => simp [he]
      · next e he =>
        have hlen : min maxValueLen e.value.length = e.value.length :=
          Nat.min_eq_right (h.limited _ e he).2
        simp [hfresh _ e he, he, hlen]
  nodup := by
    rw [contents, List.map_map]
    exact ((List.perm_insertionSort _ _).map _).nodup_iff.2 hs.data.nodupKeys
  short := by
    rintro ⟨k, v⟩ hraw
    obtain ⟨e, he, -⟩ := mem_contents.1 hraw
    exact (h.limited k e he).1

end HeapStore

/-! ## A file store below

A file store is healthy if each entry of its index is the place of a record of its key.  Every run
that meets the conditions on positions leads to such stores. -/

namespace Store

variable {st : Store} {fs : FileSystem} {now : UInt32}

/-- The entries of the index lead to records of their keys, nothing is waiting to be written, and no
entry has expired. -/
structure Healthy (st : Store) (fs : FileSystem) (now : UInt32) : Prop where
  /-- `init` has succeeded. -/
  valid : st.valid = true
  /-- Nothing is held back. -/
  buf : st.writeBuf = []
  /-- At the place of each entry is a record of its key. -/
  record : ∀ k e, st.indexFind k = some e → ∃ (i : Nat) (r : Record),
    fs.dir (st.segmentName e.segment.toNat) = some i ∧ r.bytes <+: (fs.data i).drop e.offset.toNat ∧
      r.key = k
  /-- No entry has expired. -/
  fresh : ∀ k e, st.indexFind k = some e → st.isTtlExpired now e.timestamp e.ttl.toNat = false

/-- The keys and values, in the order of the index. -/
def contents (st : Store) (fs : FileSystem) : List (Bytes × Bytes) :=
  st.items.map fun it => (it.1, (st.fetch fs it.2).getD [])

/-- So the value is read back. -/
theorem Healthy.fetch (h : st.Healthy fs now) {k : Key} {e : IndexValue} (he : st.indexFind k = some e) :
    ∃ (i : Nat) (r : Record), fs.dir (st.segmentName e.segment.toNat) = some i ∧
      r.bytes <+: (fs.data i).drop e.offset.toNat ∧ r.key = k ∧ st.fetch fs e = some r.value := by
  obtain ⟨i, r, hi, hpre, hkey⟩ := h.record k e he
  refine ⟨i, r, hi, hpre, hkey, ?_⟩
  obtain ⟨rest, hrest⟩ := hpre
  rw [Store.fetch, FileSystem.file_eq_some hi, Option.bind_some, ← hrest, readValue_bytes]

/-- The entries of the index. -/
theorem mem_items_iff {it : IndexItem} : it ∈ st.items ↔ st.indexFind it.1 = some it.2 := by
  rw [Store.items, (st.order.perm _).mem_iff]
  exact AList.mem_lookup_iff.symm

/-- The contents are what is read back at the entries. -/
theorem Healthy.mem_contents (h : st.Healthy fs now) {k v : Bytes} :
    (k, v) ∈ st.contents fs ↔ ∃ e, st.indexFind k = some e ∧ st.fetch fs e = some v := by
  rw [contents, List.mem_map]
  constructor
  · rintro ⟨⟨k', e⟩, hit, he⟩
    have hfind := mem_items_iff.1 hit
    obtain ⟨i, r, -, -, -, hr⟩ := h.fetch hfind
    rw [Prod.mk.injEq, hr] at he
    obtain ⟨rfl, rfl⟩ := he
    exact ⟨e, hfind, hr⟩
  · rintro ⟨e, he, hv⟩
    exact ⟨⟨k, e⟩, mem_items_iff.2 he, by rw [hv]; rfl⟩

/-- The loop of an iteration reads the values of the records. -/
theorem Healthy.wp_iterateLoop (h : st.Healthy fs now) {items : List IndexItem}
    (hit : ∀ it ∈ items, it ∈ st.items) : Env.plain.wp (st.iterateLoop items) (fun es fs' => fs' = fs ∧
      es.map (fun e => (e.key, e.value)) = items.map fun it => (it.1, (st.fetch fs it.2).getD [])) fs := by
  induction items with
  | nil => exact ⟨rfl, rfl⟩
  | cons it items ih =>
    obtain ⟨i, r, hi, hpre, -, hr⟩ := h.fetch (mem_items_iff.1 (hit it List.mem_cons_self))
    rw [Store.iterateLoop]
    refine Prog.wp_bind.2 (wp_loadValue (Env.plain_reads fs) hi hpre ?_)
    refine Prog.wp_bind.2 (Prog.wp_mono (ih fun it' h => hit it' (List.mem_cons_of_mem _ h)) ?_)
    rintro es fs' ⟨rfl, hes⟩
    refine Env.wp_ret ⟨rfl, ?_⟩
    rw [List.map_cons, List.map_cons, hes, hr]
    rfl

/-- Iterating over it yields the contents. -/
theorem Healthy.exec_iterate (h : st.Healthy fs now) (e : Moment) :
    Prog.exec posix (fileCall st e .iterate) fs = ((st.contents fs, st), fs) := by
  have hwp : Env.plain.wp (fileCall st e .iterate)
      (fun x fs' => x = (st.contents fs, st) ∧ fs' = fs) fs := by
    rw [fileCall, Store.iterate, flushBuffer_nil h.buf]
    refine Prog.wp_bind.2 (Env.wp_pure_bind (Prog.wp_bind.2 ?_))
    refine Prog.wp_mono (h.wp_iterateLoop fun _ h => h) ?_
    rintro es fs' ⟨rfl, hes⟩
    exact Env.wp_ret (Env.wp_ret ⟨Prod.ext hes rfl, rfl⟩)
  have hx := Env.plain_exec hwp
  exact Prod.ext hx.1 hx.2

/-- A `get` finds what is in the contents. -/
theorem Healthy.wp_get (h : st.Healthy fs now) {clk : Clock} (htime : clk.time = now) (key : Buf) :
    Env.plain.wp (st.get clk key true maxValueLen) (fun x fs' => x.2 = st ∧ fs' = fs ∧
      ∀ v, (x.1.map fun r => r.1.take r.2) = some v ↔
        ∃ e, st.indexFind key.bytes = some e ∧ st.fetch fs e = some v) fs := by
  rw [Store.get, if_neg (by rw [h.valid]; decide)]
  split
  · next hlong =>
    refine ⟨rfl, rfl, fun v => iff_of_false (by rintro ⟨⟩) ?_⟩
    rintro ⟨e, he, -⟩
    obtain ⟨-, r, -, -, hkey, -⟩ := h.fetch he
    have hle := hkey ▸ r.key_le
    exact absurd hle (Nat.not_le.2 hlong)
  rw [flushBuffer_nil h.buf]
  refine Env.wp_pure_bind ?_
  dsimp only
  cases hfind : st.indexFind key.bytes with
  | none => exact ⟨rfl, rfl, fun v => iff_of_false (by rintro ⟨⟩) (by rintro ⟨e, ⟨⟩, -⟩)⟩
  | some ie =>
    dsimp only
    rw [htime, h.fresh _ ie hfind, if_neg (by decide)]
    obtain ⟨-, r, -, -, -, hr⟩ := h.fetch hfind
    refine Prog.wp_bind.2 (wp_getAt (Env.plain_reads fs) ?_)
    rw [hr]
    refine Env.wp_ret ⟨rfl, rfl, fun v => ?_⟩
    have hval : some (r.value.take r.value.length) = st.fetch fs ie := by rw [List.take_length, hr]
    constructor
    · exact fun hv => ⟨ie, rfl, hval.symm.trans hv⟩
    · rintro ⟨e, he, hv⟩
      cases he
      exact hval.trans hv

/-- The same as a call of the store below. -/
theorem Healthy.exec_get (h : st.Healthy fs now) {e : Moment} (htime : e.clock.time = now) (k : Bytes) :
    ∃ r, Prog.exec posix (fileCall st e (.get k)) fs = ((r, st), fs) ∧
      ∀ v, r = some v ↔ (TypedStore.narrow k, v) ∈ st.contents fs := by
  have hwp : Env.plain.wp (fileCall st e (.get k)) (fun x fs' => x.2 = st ∧ fs' = fs ∧
      ∀ v, x.1 = some v ↔ (TypedStore.narrow k, v) ∈ st.contents fs) fs := by
    rw [fileCall, Store.getValue]
    refine Prog.wp_bind.2 (Prog.wp_mono (h.wp_get htime (Buf.at k).asKey) ?_)
    rintro ⟨r, st'⟩ fs' ⟨hst, hfs, hr⟩
    exact Env.wp_ret ⟨hst, hfs, fun v => (hr v).trans h.mem_contents.symm⟩
  obtain ⟨hst, hfs, hmem⟩ := Env.plain_exec hwp
  exact ⟨_, Prod.ext (Prod.ext rfl hst) hfs, hmem⟩

/-- A healthy file store answers from its contents. -/
theorem Healthy.serves (h : st.Healthy fs now) (su : Setup) {e : Moment} (htime : e.clock.time = now) :
    Serves (fileBacking su) e (st, fs) (st.contents fs) where
  isValid := Prod.ext h.valid rfl
  iterate := by
    show ((Prog.exec posix (fileCall st e .iterate) fs).1.1,
      (Prog.exec posix (fileCall st e .iterate) fs).1.2, (Prog.exec posix (fileCall st e .iterate) fs).2) = _
    rw [h.exec_iterate]
    rfl
  get k := by
    obtain ⟨r, hr, hmem⟩ := h.exec_get htime k
    refine ⟨r, ?_, hmem⟩
    show ((Prog.exec posix (fileCall st e (.get k)) fs).1.1,
      (Prog.exec posix (fileCall st e (.get k)) fs).1.2, (Prog.exec posix (fileCall st e (.get k)) fs).2) = _
    rw [hr]
    rfl
  nodup := by
    rw [contents, List.map_map]
    exact ((st.order.perm _).map _).nodup_iff.2 st.index.nodupKeys
  short := by
    rintro ⟨k, v⟩ hraw
    obtain ⟨e, he, -⟩ := h.mem_contents.1 hraw
    obtain ⟨-, r, -, -, hkey, -⟩ := h.fetch he
    exact hkey ▸ r.key_le

end Store

/-! ## Iteration -/

/-- **`TypedStore` iteration agrees with `get`** where every key of the store is the encoding of the key it
decodes to, every value decodes, and no key has an encoding whose cut length leads to a record.  With a
key codec that makes a round trip in less than 256 bytes it agrees exactly where everything decodes.
This holds over every heap store and every healthy file store without expired records, whatever the codecs
leave behind when they fail. -/
theorem typed_iteration_agrees {κ υ : Type} [DecidableEq κ] (ty : TypedStore κ υ) (junk : κ × υ) :
    (∀ (hs : HeapStore) (now : UInt32), hs.Reached → hs.Fresh now →
      (ty.Decodes hs.contents → ty.Unaliased hs.contents → ty.AgreesOn heapBacking now hs junk) ∧
        (ty.KeysRoundTrip → (ty.AgreesOn heapBacking now hs junk ↔ ty.Decodes hs.contents))) ∧
      ∀ (su : Setup) (e : Moment) (st : Store) (fs : FileSystem), st.Healthy fs e.clock.time →
        (ty.Decodes (st.contents fs) → ty.Unaliased (st.contents fs) →
          ty.AgreesOn (fileBacking su) e (st, fs) junk) ∧
          (ty.KeysRoundTrip →
            (ty.AgreesOn (fileBacking su) e (st, fs) junk ↔ ty.Decodes (st.contents fs))) :=
  ⟨fun _ _ h hfresh => ty.agreesOn_iff (h.serves hfresh) junk,
    fun su _ _ _ h => ty.agreesOn_iff (h.serves su rfl) junk⟩

/-- One byte, and nothing else. -/
def byteCodec : OutCodec UInt8 := ⟨⟨fun b => [b], fun bs => if bs.length = 1 then bs.head? else none⟩, fun _ out => out⟩

/-- Bytes as keys and values. -/
def byteStore : TypedStore UInt8 UInt8 := ⟨byteCodec, byteCodec⟩

/-- Its keys decode to themselves. -/
theorem byteStore_keysRoundTrip : byteStore.KeysRoundTrip := ⟨fun _ => rfl, fun _ => (by decide : 1 < 2 ^ 8)⟩

/-- A heap store with these records. -/
def heapOf (raws : List (Bytes × Bytes)) : HeapStore :=
  raws.foldl (fun hs raw => (hs.put 0 (.at raw.1) (.at raw.2) 0 0 0).2) .new

/-- It can be reached by puts. -/
theorem heapOf_reached (raws : List (Bytes × Bytes)) : (heapOf raws).Reached := by
  have from_reached {hs : HeapStore} (h : hs.Reached) :
      (raws.foldl (fun hs raw => (hs.put 0 (.at raw.1) (.at raw.2) 0 0 0).2) hs).Reached := by
    induction raws generalizing hs with
    | nil => exact h
    | cons raw raws ih => exact ih (h.put 0 (.at raw.1) (.at raw.2) 0 0 0)
  exact from_reached .new

/-- No entry has expired, as a check that can be evaluated. -/
theorem fresh_of_entries {hs : HeapStore} {now : UInt32}
    (h : (hs.data.entries.all fun it => !hs.expired now it.2) = true) : hs.Fresh now := by
  intro k e he
  simpa using List.all_eq_true.1 h ⟨k, e⟩ (AList.mem_lookup_iff.1 he)

/-- Two records that decode. -/
theorem typed_iteration_agrees_sample :
    byteStore.AgreesOn heapBacking 0 (heapOf [([1], [5]), ([2], [6])]) (0, 0) :=
  (((typed_iteration_agrees byteStore (0, 0)).1 _ 0 (heapOf_reached [([1], [5]), ([2], [6])])
    (fresh_of_entries (by decide +kernel))).2 byteStore_keysRoundTrip).2 (by
      have hall : ∀ raw ∈ (heapOf [([1], [5]), ([2], [6])]).contents,
          raw = ([1], [5]) ∨ raw = ([2], [6]) := by decide +kernel
      intro raw hraw
      rcases hall raw hraw with rfl | rfl
      · exact ⟨⟨1, by decide, by decide⟩, by decide⟩
      · exact ⟨⟨2, by decide, by decide⟩, by decide⟩)

/-- A value that does not decode comes out as the value before it, and `get` fails. -/
theorem typed_iteration_yields_stale : ¬∀ (κ υ : Type) (_ : DecidableEq κ) (ty : TypedStore κ υ) (junk : κ × υ)
    (hs : HeapStore) (now : UInt32), hs.Reached → hs.Fresh now → ty.AgreesOn heapBacking now hs junk := by
  intro h
  have hagrees := h UInt8 UInt8 inferInstance byteStore (0, 0) _ 0 (heapOf_reached [([1], [5]), ([2], [])])
    (fresh_of_entries (by decide +kernel))
  have hyield := hagrees.1 (2, 5) (by decide +kernel)
  revert hyield
  decide +kernel

end MicroStore
