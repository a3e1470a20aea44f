import MicroStore.FileStore.State

/-!
# `HeapStore.h`: the store in memory

`BasicHeapStore` keeps its records in an `std::map`, which is ordered by key.  The order matters in
one place: a put into a full store evicts the least key.

* `HeapStore` — the members: the records, as an association list without duplicate keys, and the policies.
* `HeapStore.put` — a sweep over what has expired (`sweep`), then room for the new key (`evictLoop`), then
  the record itself.
* `HeapStore.get`, `remove`, `exists`, `size`, `clear` — as the source has them.  `exists` does not look at
  the TTL, and only `get` and `put` drop what has expired.

The clock is an argument of every operation that reads it.  What the TTL comes to is in
`HeapExpiring.lean`, what eviction comes to in `HeapEvicting.lean`.
-/

set_option autoImplicit false

namespace MicroStore

/-- `HeapEntry`. -/
structure HeapEntry where
  /-- The value. -/
  value : Value
  /-- When it was put. -/
  timestamp : UInt32
  /-- Its own TTL, or zero. -/
  ttl : UInt32
  deriving DecidableEq, Repr

/-- The members of a `BasicHeapStore`. -/
structure HeapStore where
  /-- `data_`: the entries. -/
  data : AList fun _ : Key => HeapEntry
  /-- `policy_ttl_secs`: the TTL of entries without one of their own. -/
  policyTtlSecs : UInt32
  /-- `policy_max_recs`: the limit on the entries, or zero for none. -/
  policyMaxRecs : UInt32

namespace HeapStore

/-- The constructor. -/
def new : HeapStore := ⟨∅, 0, 0⟩

/-- `set_ttl_secs`. -/
def setTtlSecs (hs : HeapStore) (ttl : UInt32) : HeapStore := { hs with policyTtlSecs := ttl }

/-- `set_max_recs`. -/
def setMaxRecs (hs : HeapStore) (maxRecs : UInt32) : HeapStore := { hs with policyMaxRecs := maxRecs }

/-- The TTL an entry is subject to. -/
def effective (hs : HeapStore) (e : HeapEntry) : UInt32 := if 0 < e.ttl then e.ttl else hs.policyTtlSecs

/-- The expiry test of `put` and `get`, in 32-bit arithmetic. -/
def expired (hs : HeapStore) (now : UInt32) (e : HeapEntry) : Bool :=
  decide (0 < hs.effective e ∧ hs.effective e ≤ now - e.timestamp)

/-- The loop of `put` that drops the expired entries. -/
def sweep (hs : HeapStore) (now : UInt32) : HeapStore :=
  { hs with
    data := (hs.data.entries.filter fun it => hs.expired now it.2).foldl (fun m it => m.erase it.1)
      hs.data }

/-- `data_.begin()`: the least key. -/
def least : List Key → Option Key
  | [] => none
  | k :: rest => some (rest.foldl (fun least k => if k < least then k else least) k)

/-- The loop of `put` that makes room, with as many rounds to go as there are entries at most. -/
def evictLoop (maxRecs : Nat) : Nat → (AList fun _ : Key => HeapEntry) → AList fun _ : Key => HeapEntry
  | 0, m => m
  | fuel + 1, m =>
    if m.keys.length < maxRecs then m
    else
      match least m.keys with
      | none => m
      | some k => evictLoop maxRecs fuel (m.erase k)

/-- `put`.  The priority is not kept. -/
def put (hs : HeapStore) (now : UInt32) (key data : Buf) (ttl ts : UInt32) (_priority : UInt8) :
    Bool × HeapStore :=
  if maxKeyLen < key.bytes.length then (false, hs)
  else if maxValueLen < data.bytes.length then (false, hs)
  else
    let hs := hs.sweep now
    let hs := if 0 < hs.policyMaxRecs ∧ hs.data.lookup key.bytes = none then
        { hs with data := evictLoop hs.policyMaxRecs.toNat hs.data.keys.length hs.data }
      else hs
    (true, { hs with data := hs.data.insert key.bytes ⟨data.bytes, ts, ttl⟩ })

/-- `get` with a buffer of `size` bytes (or none, when `out` is false).  The answer is the bytes
stored in the buffer and the length of the value. -/
def get (hs : HeapStore) (now : UInt32) (key : Buf) (out : Bool) (size : Nat) :
    Option (Bytes × Nat) × HeapStore :=
  if maxKeyLen < key.bytes.length then (none, hs)
  else
    match hs.data.lookup key.bytes with
    | none => (none, hs)
    | some e =>
      if hs.expired now e then (none, { hs with data := hs.data.erase key.bytes })
      else (some (if out then e.value.take (min size e.value.length) else [], e.value.length), hs)

/-- `remove`. -/
def remove (hs : HeapStore) (key : Buf) : Bool × HeapStore :=
  if maxKeyLen < key.bytes.length then (false, hs)
  else (true, { hs with data := hs.data.erase key.bytes })

/-- `exists`. -/
def «exists» (hs : HeapStore) (key : Buf) : Bool :=
  if maxKeyLen < key.bytes.length then false else (hs.data.lookup key.bytes).isSome

/-- `size`. -/
def size (hs : HeapStore) : Nat := hs.data.keys.length

/-- `clear`. -/
def clear (hs : HeapStore) : HeapStore := { hs with data := ∅ }

end HeapStore

end MicroStore
