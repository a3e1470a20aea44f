import MicroStore.TypedTieredStore

/-!
# The links of a tiered store

`TypedTieredStore.h` once more, with the links the source keeps: every slot has the number of the next
slot on its chain and of its neighbours on the LRU list, the buckets and the two ends of the list hold
slot numbers, and `INVALID` is no slot.  The operations are those of `Tiered`, over these links.

## Two models of one class

`TypedTieredStore.lean` has lists where the source has links, which suits everything that is said of
keys and values.  This file is closer to the source, and it is the one to compare with it line by line.
Statements about the links themselves, that chains and lists are whole and that the loops over them end,
are stated here; `TieredThreads.lean` shows that the two models do the same.

## What is here

* `LinkedSlot`, `Linked` — slots with `prev`, `next` and `hash_next`, the buckets and the ends of the
  LRU list.
* `linkHash`, `unlinkHash`, `linkLruFront`, `unlinkLru`, `touch` — the changes of links, assignment by
  assignment.
* `findLoop`, `unlinkLoop` — the loops over a chain, on a supply of rounds.  `none` means that the
  supply has run out, so that a loop ends is a statement and not an assumption.
* the operations.
-/

set_option autoImplicit false

namespace MicroStore

/-- `INVALID`. -/
def invalidSlot : Nat := 0xFFFF

/-- `Slot`, with its links. -/
structure LinkedSlot (κ υ : Type) extends Slot κ υ where
  /-- The neighbour towards the head of the LRU list. -/
  prev : Nat
  /-- The neighbour towards its tail. -/
  next : Nat
  /-- The next slot on the chain. -/
  hashNext : Nat

/-- `Slot{}`. -/
instance {κ υ : Type} [Inhabited κ] [Inhabited υ] : Inhabited (LinkedSlot κ υ) :=
  ⟨⟨default, invalidSlot, invalidSlot, invalidSlot⟩⟩

/-- The members of a `TypedTieredStore`. -/
structure Linked (κ υ : Type) where
  /-- All slots. -/
  slots : Nat → LinkedSlot κ υ
  /-- The first slot of each chain. -/
  l1Buckets : Nat → Nat
  /-- The slot used last. -/
  lruHead : Nat
  /-- The slot not used for longest. -/
  lruTail : Nat

namespace Linked

variable {κ υ : Type} [DecidableEq κ] [Inhabited κ] [Inhabited υ] (ty : Typed κ υ)

/-! ## Slots

The helpers of the source, up to the allocation of a slot. -/

/-- `reset_l1_`. -/
def new : Linked κ υ := ⟨fun _ => default, fun _ => invalidSlot, invalidSlot, invalidSlot⟩

/-- Assign to a slot. -/
def assign (t : Linked κ υ) (i : Nat) (s : LinkedSlot κ υ) : Linked κ υ :=
  { t with slots := Function.update t.slots i s }

/-- Set the members of a slot other than its links. -/
def set (t : Linked κ υ) (i : Nat) (s : Slot κ υ) : Linked κ υ :=
  t.assign i { t.slots i with toSlot := s }

/-- Set `prev` of a slot. -/
def setPrev (t : Linked κ υ) (i p : Nat) : Linked κ υ := t.assign i { t.slots i with prev := p }

/-- Set `next` of a slot. -/
def setNext (t : Linked κ υ) (i n : Nat) : Linked κ υ := t.assign i { t.slots i with next := n }

/-- Set `hash_next` of a slot. -/
def setHashNext (t : Linked κ υ) (i n : Nat) : Linked κ υ :=
  t.assign i { t.slots i with hashNext := n }

/-- Set a bucket. -/
def setBucket (t : Linked κ υ) (b i : Nat) : Linked κ υ :=
  { t with l1Buckets := Function.update t.l1Buckets b i }

/-- The rounds the loops over a chain are given.  A loop that needs more has not ended. -/
def chainFuel : Nat := invalidSlot + 1

/-- The loop of `find_l1_`.  Without a result it has not ended. -/
def findLoop (t : Linked κ υ) (key : κ) : Nat → Nat → Option (Option Nat)
  | 0, _ => none
  | fuel + 1, idx =>
    if idx = invalidSlot then some none
    else if (t.slots idx).valid && decide ((t.slots idx).key = key) then some (asInt16 idx)
    else findLoop t key fuel (t.slots idx).hashNext

/-- `find_l1_`. -/
def find (t : Linked κ υ) (key : κ) : Option Nat :=
  (t.findLoop key chainFuel (t.l1Buckets (Tiered.bucket ty key))).join

/-- `link_l1_hash_`. -/
def linkHash (t : Linked κ υ) (slot : Nat) : Linked κ υ :=
  let b := Tiered.bucket ty (t.slots slot).key
  (t.setHashNext slot (t.l1Buckets b)).setBucket b slot

/-- The loop of `unlink_l1_hash_`.  Without a result it has not ended. -/
def unlinkLoop (t : Linked κ υ) (b slot : Nat) : Nat → Nat → Nat → Option (Linked κ υ)
  | 0, _, _ => none
  | fuel + 1, idx, prev =>
    if idx = invalidSlot then some t
    else if idx = slot then
      let t := if prev = invalidSlot then t.setBucket b (t.slots idx).hashNext
        else t.setHashNext prev (t.slots idx).hashNext
      some (t.setHashNext idx invalidSlot)
    else unlinkLoop t b slot fuel (t.slots idx).hashNext idx

/-- `unlink_l1_hash_`. -/
def unlinkHash (t : Linked κ υ) (slot : Nat) : Linked κ υ :=
  let b := Tiered.bucket ty (t.slots slot).key
  (t.unlinkLoop b slot chainFuel (t.l1Buckets b) invalidSlot).getD t

/-- `link_lru_front_`. -/
def linkLruFront (t : Linked κ υ) (slot : Nat) : Linked κ υ :=
  let t := t.setPrev slot invalidSlot
  let t := t.setNext slot t.lruHead
  let t := if t.lruHead ≠ invalidSlot then t.setPrev t.lruHead slot else t
  let t := { t with lruHead := slot }
  if t.lruTail = invalidSlot then { t with lruTail := slot } else t

/-- `unlink_lru_`. -/
def unlinkLru (t : Linked κ υ) (slot : Nat) : Linked κ υ :=
  let prev := (t.slots slot).prev
  let next := (t.slots slot).next
  let t := if prev ≠ invalidSlot then t.setNext prev next else { t with lruHead := next }
  let t := if next ≠ invalidSlot then t.setPrev next prev else { t with lruTail := prev }
  (t.setPrev slot invalidSlot).setNext slot invalidSlot

/-- `touch_l1_`. -/
def touch (t : Linked κ υ) (slot : Nat) : Linked κ υ :=
  if slot = t.lruHead then t else (t.unlinkLru slot).linkLruFront slot

/-- `free_l1_slot_`. -/
def freeSlot (t : Linked κ υ) : Option Nat :=
  ((List.range ty.cacheSize.toNat).find? fun i => !(t.slots i).valid).bind asInt16

/-- `remove_l1_slot_`. -/
def removeSlot (t : Linked κ υ) (i : Nat) : Linked κ υ :=
  if !(t.slots i).valid then t
  else ((unlinkHash ty t i).unlinkLru i).assign i default

/-- `expire_l1_slot_`. -/
def expireSlot (t : Linked κ υ) (i : Nat) : StoreM (Linked κ υ) := do
  let s := t.slots i
  let t := removeSlot ty t i
  if s.inL2 then
    let _ ← storeCall (.remove (ty.keyCodec.encode s.key))
    pure t
  else pure t

/-- `prune_expired_l1_`, with `n` slots to go from `i` on. -/
def pruneLoop (now : UInt32) : Nat → Nat → Linked κ υ → StoreM (Linked κ υ)
  | 0, _, t => pure t
  | n + 1, i, t => do
    let t ← if (t.slots i).valid && (t.slots i).isExpired now then expireSlot ty t i else pure t
    pruneLoop now n (i + 1) t

/-- `prune_expired_l1_`. -/
def pruneExpired (now : UInt32) (t : Linked κ υ) : StoreM (Linked κ υ) :=
  pruneLoop ty now ty.cacheSize.toNat 0 t

/-- `flush_l1_slot_`. -/
def flushSlot (now : UInt32) (t : Linked κ υ) (i : Nat) : StoreM (Bool × Linked κ υ) := do
  let s := (t.slots i).toSlot
  if !s.valid || !s.dirty then pure (true, t)
  else
    let ok ← storeCall (.put (ty.keyCodec.encode s.key) (ty.valueCodec.encode s.value)
      (s.remainingTtl now) now s.priority)
    match ok with
    | false => pure (false, t)
    | true => pure (true, t.set i { s with dirty := false, inL2 := true })

/-- `allocate_l1_slot_`. -/
def allocateSlot (now : UInt32) (t : Linked κ υ) : StoreM (Option Nat × Linked κ υ) := do
  match freeSlot ty t with
  | some i => pure (some i, t)
  | none =>
    if t.lruTail = invalidSlot then pure (none, t)
    else
      let evict := t.lruTail
      if (t.slots evict).isExpired now then
        let t ← expireSlot ty t evict
        pure (asInt16 evict, t)
      else
        let (ok, t) ← flushSlot ty now t evict
        if !ok then pure (none, t)
        else pure (asInt16 evict, removeSlot ty t evict)

/-! ## Operations

As in `TypedTieredStore.lean`, over the links. -/

/-- `put`. -/
def put (now : UInt32) (t : Linked κ υ) (key : κ) (value : υ) (ttl : UInt32) (priority : UInt8) :
    StoreM (Bool × Linked κ υ) := do
  let valid ← storeCall .isValid
  match valid with
  | false => pure (false, t)
  | true =>
    let t ← pruneExpired ty now t
    match find ty t key with
    | some i =>
      let s := { (t.slots i).toSlot with
        value := value
        expiresAt := MicroStore.expiresAt now ttl
        priority := priority
        dirty := true }
      pure (true, (t.set i s).touch i)
    | none =>
      match ← allocateSlot ty now t with
      | (none, t) => pure (false, t)
      | (some i, t) =>
        let inL2 ← storeCall (.exists (ty.keyCodec.encode key))
        let s : Slot κ υ := ⟨key, value, MicroStore.expiresAt now ttl, priority, true, true, inL2⟩
        pure (true, (linkHash ty (t.set i s) i).linkLruFront i)

/-- `get`. -/
def get (now : UInt32) (t : Linked κ υ) (key : κ) : StoreM (Option υ × Linked κ υ) := do
  let valid ← storeCall .isValid
  match valid with
  | false => pure (none, t)
  | true =>
    match find ty t key with
    | some i =>
      if (t.slots i).isExpired now then
        let t ← expireSlot ty t i
        pure (none, t)
      else pure (some (t.slots i).value, t.touch i)
    | none =>
      let raw ← storeCall (.get (ty.keyCodec.encode key))
      match raw with
      | none => pure (none, t)
      | some raw =>
        match ty.valueCodec.decode raw with
        | none => pure (none, t)
        | some decoded =>
          match ← allocateSlot ty now t with
          | (none, t) => pure (some decoded, t)
          | (some i, t) =>
            let s := { (t.slots i).toSlot with
              key := key
              value := decoded
              dirty := false
              valid := true
              inL2 := true }
            pure (some decoded, (linkHash ty (t.set i s) i).linkLruFront i)

/-- `remove`. -/
def remove (t : Linked κ υ) (key : κ) : StoreM (Bool × Linked κ υ) := do
  let valid ← storeCall .isValid
  match valid with
  | false => pure (false, t)
  | true =>
    let (inL2, t) ← match find ty t key with
      | some i => pure ((t.slots i).inL2, removeSlot ty t i)
      | none => do
        let inL2 ← storeCall (.exists (ty.keyCodec.encode key))
        pure (inL2, t)
    if inL2 then
      let ok ← storeCall (.remove (ty.keyCodec.encode key))
      pure (ok, t)
    else pure (true, t)

/-- `exists`. -/
def «exists» (now : UInt32) (t : Linked κ υ) (key : κ) : StoreM (Bool × Linked κ υ) := do
  let valid ← storeCall .isValid
  match valid with
  | false => pure (false, t)
  | true =>
    match find ty t key with
    | some i =>
      if (t.slots i).isExpired now then
        let t ← expireSlot ty t i
        pure (false, t)
      else pure (true, t)
    | none =>
      let found ← storeCall (.exists (ty.keyCodec.encode key))
      pure (found, t)

/-- The slots that are valid and not in the store below. -/
def onlyL1 (t : Linked κ υ) : List Nat :=
  (List.range ty.cacheSize.toNat).filter fun i => (t.slots i).valid && !(t.slots i).inL2

/-- `size`. -/
def size (t : Linked κ υ) : StoreM Nat := do
  let valid ← storeCall .isValid
  match valid with
  | false => pure 0
  | true =>
    let n : Nat ← storeCall .size
    pure (n + (onlyL1 ty t).length)

/-- The loop of `sync` over the slots below `n`, from the last one on. -/
def syncLoop (now : UInt32) : Nat → Bool → Linked κ υ → StoreM (Bool × Linked κ υ)
  | 0, ok, t => pure (ok, t)
  | i + 1, ok, t => do
    let s := t.slots i
    if !s.valid || !s.dirty then syncLoop now i ok t
    else
      let pruned ← if s.inL2 then do
          let found ← storeCall (.exists (ty.keyCodec.encode s.key))
          pure (!found)
        else pure false
      match pruned with
      | true => syncLoop now i ok (removeSlot ty t i)
      | false =>
        let (flushed, t) ← flushSlot ty now t i
        syncLoop now i (ok && flushed) t

/-- `sync`. -/
def sync (now : UInt32) (t : Linked κ υ) : StoreM (Bool × Linked κ υ) := do
  let valid ← storeCall .isValid
  match valid with
  | false => pure (false, t)
  | true =>
    let t ← pruneExpired ty now t
    syncLoop ty now ty.cacheSize.toNat true t

/-- `clear`. -/
def clear (t : Linked κ υ) : StoreM (Linked κ υ) := do
  let valid ← storeCall .isValid
  match valid with
  | false => pure t
  | true =>
    storeCall .clear
    pure new

/-- `load_next_` in its first phase: what an entry of the store below is shown as. -/
def mergeEntry (t : Linked κ υ) (raw : Bytes × Bytes) : Option (κ × υ) :=
  match ty.keyCodec.decode raw.1 with
  | none => none
  | some key =>
    match find ty t key with
    | some i => some ((t.slots i).key, (t.slots i).value)
    | none =>
      match ty.valueCodec.decode raw.2 with
      | none => none
      | some value => some (key, value)

/-- The iterator, from `begin()` to `end()`. -/
def iterate (now : UInt32) (t : Linked κ υ) : StoreM (List (κ × υ) × Linked κ υ) := do
  let valid ← storeCall .isValid
  match valid with
  | false => pure ([], t)
  | true =>
    let t ← pruneExpired ty now t
    let raws ← storeCall .iterate
    pure (raws.filterMap (mergeEntry ty t)
      ++ (onlyL1 ty t).map fun i => ((t.slots i).key, (t.slots i).value), t)

end Linked

end MicroStore
