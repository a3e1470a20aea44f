import MicroStore.FileStore.State

/-!
# `TypedTieredStore.h`: a write-back cache over a store

`TypedTieredStore` keeps the entries used last in a fixed number of slots (L1) and writes a changed one
to the store below (L2) when it is evicted or at `sync`.  The store below is a template argument, so its
operations are calls here (`StoreCall`), and what they do is said where a store is put below.

The slots are threaded twice: on the LRU list, and on the chain of their hash bucket.  The two threads
are kept as lists of slot numbers, from the head on.  Slot numbers are returned as `int16_t`, and a
negative one means that there is no slot.

## What is here

* `StoreCall`, `StoreM` — the calls on the store below, and the programs over them;
* `Codec`, `Typed` — the template arguments: the codecs, the hash and the sizes;
* `Slot`, `Tiered` — the members, with the threads as lists;
* the operations on slots, from `Tiered.new` to `Tiered.allocateSlot`, each under the source's name;
* the public operations, from `Tiered.put` to `Tiered.iterate`.

## What is not here

The source threads its slots through index fields in the slots themselves.  That these fields amount to
the lists here is the subject of `TieredLinks.lean` and `TieredThreads.lean`, which keep the arrays as
they are and run both side by side.
-/

set_option autoImplicit false

namespace MicroStore

/-! ## The store below -/

/-- The calls on the store below. -/
inductive StoreCall
  | isValid
  | put (key value : Bytes) (ttl ts : UInt32) (priority : UInt8)
  | get (key : Bytes)
  | «exists» (key : Bytes)
  | remove (key : Bytes)
  | size
  | iterate
  | clear

/-- What a call answers.  A `get` that fails answers nothing, and the iterators answer the keys and
values they go through. -/
def StoreCall.Reply : StoreCall → Type
  | .isValid | .put .. | .exists _ | .remove _ => Bool
  | .get _ => Option Bytes
  | .size => Nat
  | .iterate => List (Bytes × Bytes)
  | .clear => Unit

/-- Programs over the store below. -/
abbrev StoreM := Prog StoreCall StoreCall.Reply

/-- Make a call on the store below. -/
abbrev storeCall (c : StoreCall) : StoreM c.Reply := Prog.perform c

/-! ## The members -/

/-- A `Codec`. -/
structure Codec (α : Type) where
  /-- `encode`. -/
  encode : α → Bytes
  /-- `decode`, which may fail. -/
  decode : Bytes → Option α

/-- The template arguments, and the sizes the macros set.  Every loop over the slots or the buckets
counts in a `uint16_t`. -/
structure Typed (κ υ : Type) where
  /-- `CacheSize`: how many slots there are. -/
  cacheSize : UInt16
  /-- How many chains. -/
  hashBuckets : UInt16
  /-- The hash of a key. -/
  keyHash : κ → Nat
  /-- The codec of the keys. -/
  keyCodec : Codec κ
  /-- The codec of the values. -/
  valueCodec : Codec υ

/-- `Slot`, without its links. -/
structure Slot (κ υ : Type) where
  /-- The key. -/
  key : κ
  /-- Its value. -/
  value : υ
  /-- `expires_at`: when it expires, or zero for never. -/
  expiresAt : UInt32
  /-- Its priority, which L2 is given. -/
  priority : UInt8
  /-- Is the slot in use? -/
  valid : Bool
  /-- Has the value not been written to L2? -/
  dirty : Bool
  /-- `in_l2`: has L2 the key, as far as the cache knows? -/
  inL2 : Bool

/-- `Slot{}`. -/
instance {κ υ : Type} [Inhabited κ] [Inhabited υ] : Inhabited (Slot κ υ) :=
  ⟨⟨default, default, 0, 0, false, false, false⟩⟩

/-- The members of a `TypedTieredStore`: the slots, the chains and the LRU list. -/
structure Tiered (κ υ : Type) where
  /-- The slots. -/
  slots : Nat → Slot κ υ
  /-- The slots of each chain, in order. -/
  buckets : Nat → List Nat
  /-- The slots in use, the most recent first. -/
  lru : List Nat

/-- A slot number as an `int16_t`, of which a negative one is none. -/
def asInt16 (i : Nat) : Option Nat := if i < 2 ^ 15 then some i else none

/-! ## Expiry -/

/-- `expires_at_`. -/
def expiresAt (now ttl : UInt32) : UInt32 := if ttl = 0 then 0 else now + ttl

namespace Slot

variable {κ υ : Type}

/-- `is_expired_`. -/
def isExpired (now : UInt32) (s : Slot κ υ) : Bool := decide (s.expiresAt ≠ 0 ∧ s.expiresAt ≤ now)

/-- `remaining_ttl_`. -/
def remainingTtl (now : UInt32) (s : Slot κ υ) : UInt32 :=
  if s.expiresAt = 0 then 0 else if now < s.expiresAt then s.expiresAt - now else 1

end Slot

namespace Tiered

variable {κ υ : Type} [DecidableEq κ] [Inhabited κ] [Inhabited υ] (ty : Typed κ υ)

/-! ## Slots -/

/-- `reset_l1_`. -/
def new : Tiered κ υ := ⟨fun _ => default, fun _ => [], []⟩

/-- `l1_bucket_`. -/
def bucket (key : κ) : Nat := ty.keyHash key % ty.hashBuckets.toNat

/-- `find_l1_`. -/
def find (t : Tiered κ υ) (key : κ) : Option Nat :=
  ((t.buckets (bucket ty key)).find? fun i =>
    (t.slots i).valid && decide ((t.slots i).key = key)).bind asInt16

/-- Set the members of a slot. -/
def set (t : Tiered κ υ) (i : Nat) (s : Slot κ υ) : Tiered κ υ :=
  { t with slots := Function.update t.slots i s }

/-- `link_l1_hash_`. -/
def linkHash (t : Tiered κ υ) (i : Nat) : Tiered κ υ :=
  let b := bucket ty (t.slots i).key
  { t with buckets := Function.update t.buckets b (i :: t.buckets b) }

/-- `unlink_l1_hash_`. -/
def unlinkHash (t : Tiered κ υ) (i : Nat) : Tiered κ υ :=
  let b := bucket ty (t.slots i).key
  { t with buckets := Function.update t.buckets b ((t.buckets b).erase i) }

/-- `link_lru_front_`. -/
def linkLruFront (t : Tiered κ υ) (i : Nat) : Tiered κ υ := { t with lru := i :: t.lru }

/-- `unlink_lru_`. -/
def unlinkLru (t : Tiered κ υ) (i : Nat) : Tiered κ υ := { t with lru := t.lru.erase i }

/-- `touch_l1_`. -/
def touch (t : Tiered κ υ) (i : Nat) : Tiered κ υ :=
  if t.lru.head? = some i then t else (t.unlinkLru i).linkLruFront i

/-- `free_l1_slot_`. -/
def freeSlot (t : Tiered κ υ) : Option Nat :=
  ((List.range ty.cacheSize.toNat).find? fun i => !(t.slots i).valid).bind asInt16

/-- `remove_l1_slot_`. -/
def removeSlot (t : Tiered κ υ) (i : Nat) : Tiered κ υ :=
  if !(t.slots i).valid then t
  else ((unlinkHash ty t i).unlinkLru i).set i default

/-- `expire_l1_slot_`. -/
def expireSlot (t : Tiered κ υ) (i : Nat) : StoreM (Tiered κ υ) := do
  let s := t.slots i
  let t := removeSlot ty t i
  if s.inL2 then
    let _ ← storeCall (.remove (ty.keyCodec.encode s.key))
    pure t
  else pure t

/-- `prune_expired_l1_`, with `n` slots to go from `i` on. -/
def pruneLoop (now : UInt32) : Nat → Nat → Tiered κ υ → StoreM (Tiered κ υ)
  | 0, _, t => pure t
  | n + 1, i, t => do
    let t ← if (t.slots i).valid && (t.slots i).isExpired now then expireSlot ty t i else pure t
    pruneLoop now n (i + 1) t

/-- `prune_expired_l1_`. -/
def pruneExpired (now : UInt32) (t : Tiered κ υ) : StoreM (Tiered κ υ) :=
  pruneLoop ty now ty.cacheSize.toNat 0 t

/-- `flush_l1_slot_`. -/
def flushSlot (now : UInt32) (t : Tiered κ υ) (i : Nat) : StoreM (Bool × Tiered κ υ) := do
  let s := t.slots i
  if !s.valid || !s.dirty then pure (true, t)
  else
    let ok ← storeCall (.put (ty.keyCodec.encode s.key) (ty.valueCodec.encode s.value)
      (s.remainingTtl now) now s.priority)
    match ok with
    | false => pure (false, t)
    | true => pure (true, t.set i { s with dirty := false, inL2 := true })

/-- `allocate_l1_slot_`. -/
def allocateSlot (now : UInt32) (t : Tiered κ υ) : StoreM (Option Nat × Tiered κ υ) := do
  match freeSlot ty t with
  | some i => pure (some i, t)
  | none =>
    match t.lru.getLast? with
    | none => pure (none, t)
    | some evict =>
      if (t.slots evict).isExpired now then
        let t ← expireSlot ty t evict
        pure (asInt16 evict, t)
      else
        let (ok, t) ← flushSlot ty now t evict
        if !ok then pure (none, t)
        else pure (asInt16 evict, removeSlot ty t evict)

/-! ## Operations -/

/-- `put`. -/
def put (now : UInt32) (t : Tiered κ υ) (key : κ) (value : υ) (ttl : UInt32) (priority : UInt8) :
    StoreM (Bool × Tiered κ υ) := do
  let valid ← storeCall .isValid
  match valid with
  | false => pure (false, t)
  | true =>
    let t ← pruneExpired ty now t
    match find ty t key with
    | some i =>
      let s := { t.slots i with
        value := value
        expiresAt := MicroStore.expiresAt now ttl
        priority := priority
        dirty := true }
      pure (true, (t.set i s).touch i)
    | none =>
      match ← allocateSlot ty now t with
      | (none, t) => pure (false, t)
      | (some i, t) =>
        let inL2 ← storeCall (.exists (ty.keyCodec.encode key))
        let s : Slot κ υ := ⟨key, value, MicroStore.expiresAt now ttl, priority, true, true, inL2⟩
        pure (true, (linkHash ty (t.set i s) i).linkLruFront i)

/-- `get`. -/
def get (now : UInt32) (t : Tiered κ υ) (key : κ) : StoreM (Option υ × Tiered κ υ) := do
  let valid ← storeCall .isValid
  match valid with
  | false => pure (none, t)
  | true =>
    match find ty t key with
    | some i =>
      if (t.slots i).isExpired now then
        let t ← expireSlot ty t i
        pure (none, t)
      else pure (some (t.slots i).value, t.touch i)
    | none =>
      let raw ← storeCall (.get (ty.keyCodec.encode key))
      match raw with
      | none => pure (none, t)
      | some raw =>
        match ty.valueCodec.decode raw with
        | none => pure (none, t)
        | some decoded =>
          match ← allocateSlot ty now t with
          | (none, t) => pure (some decoded, t)
          | (some i, t) =>
            let s := { t.slots i with
              key := key
              value := decoded
              dirty := false
              valid := true
              inL2 := true }
            pure (some decoded, (linkHash ty (t.set i s) i).linkLruFront i)

/-- `remove`. -/
def remove (t : Tiered κ υ) (key : κ) : StoreM (Bool × Tiered κ υ) := do
  let valid ← storeCall .isValid
  match valid with
  | false => pure (false, t)
  | true =>
    let (inL2, t) ← match find ty t key with
      | some i => pure ((t.slots i).inL2, removeSlot ty t i)
      | none => do
        let inL2 ← storeCall (.exists (ty.keyCodec.encode key))
        pure (inL2, t)
    if inL2 then
      let ok ← storeCall (.remove (ty.keyCodec.encode key))
      pure (ok, t)
    else pure (true, t)

/-- `exists`. -/
def «exists» (now : UInt32) (t : Tiered κ υ) (key : κ) : StoreM (Bool × Tiered κ υ) := do
  let valid ← storeCall .isValid
  match valid with
  | false => pure (false, t)
  | true =>
    match find ty t key with
    | some i =>
      if (t.slots i).isExpired now then
        let t ← expireSlot ty t i
        pure (false, t)
      else pure (true, t)
    | none =>
      let found ← storeCall (.exists (ty.keyCodec.encode key))
      pure (found, t)

/-- The slots that are valid and not in the store below. -/
def onlyL1 (t : Tiered κ υ) : List Nat :=
  (List.range ty.cacheSize.toNat).filter fun i => (t.slots i).valid && !(t.slots i).inL2

/-- `size`. -/
def size (t : Tiered κ υ) : StoreM Nat := do
  let valid ← storeCall .isValid
  match valid with
  | false => pure 0
  | true =>
    let n : Nat ← storeCall .size
    pure (n + (onlyL1 ty t).length)

/-- The loop of `sync` over the slots below `n`, from the last one on. -/
def syncLoop (now : UInt32) : Nat → Bool → Tiered κ υ → StoreM (Bool × Tiered κ υ)
  | 0, ok, t => pure (ok, t)
  | i + 1, ok, t => do
    let s := t.slots i
    if !s.valid || !s.dirty then syncLoop now i ok t
    else
      let pruned ← if s.inL2 then do
          let found ← storeCall (.exists (ty.keyCodec.encode s.key))
          pure (!found)
        else pure false
      match pruned with
      | true => syncLoop now i ok (removeSlot ty t i)
      | false =>
        let (flushed, t) ← flushSlot ty now t i
        syncLoop now i (ok && flushed) t

/-- `sync`. -/
def sync (now : UInt32) (t : Tiered κ υ) : StoreM (Bool × Tiered κ υ) := do
  let valid ← storeCall .isValid
  match valid with
  | false => pure (false, t)
  | true =>
    let t ← pruneExpired ty now t
    syncLoop ty now ty.cacheSize.toNat true t

/-- `clear`. -/
def clear (t : Tiered κ υ) : StoreM (Tiered κ υ) := do
  let valid ← storeCall .isValid
  match valid with
  | false => pure t
  | true =>
    storeCall .clear
    pure new

/-- `dirtyCount`. -/
def dirtyCount (t : Tiered κ υ) : Nat :=
  ((List.range ty.cacheSize.toNat).filter fun i => (t.slots i).valid && (t.slots i).dirty).length

/-- `load_next_` in its first phase: what an entry of the store below is shown as. -/
def mergeEntry (t : Tiered κ υ) (raw : Bytes × Bytes) : Option (κ × υ) :=
  match ty.keyCodec.decode raw.1 with
  | none => none
  | some key =>
    match find ty t key with
    | some i => some ((t.slots i).key, (t.slots i).value)
    | none =>
      match ty.valueCodec.decode raw.2 with
      | none => none
      | some value => some (key, value)

/-- The iterator, from `begin()` to `end()`: the entries of the store below, then the slots that are not
in it. -/
def iterate (now : UInt32) (t : Tiered κ υ) : StoreM (List (κ × υ) × Tiered κ υ) := do
  let valid ← storeCall .isValid
  match valid with
  | false => pure ([], t)
  | true =>
    let t ← pruneExpired ty now t
    let raws ← storeCall .iterate
    pure (raws.filterMap (mergeEntry ty t)
      ++ (onlyL1 ty t).map fun i => ((t.slots i).key, (t.slots i).value), t)

end Tiered

end MicroStore
