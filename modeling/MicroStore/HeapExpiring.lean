import MicroStore.HeapStore
import MicroStore.Expiring

/-!
# Time to live in memory

A `HeapStore` takes the age of a record in 32-bit arithmetic, so that a record from the future counts as
very old, and `exists` does not look at the age at all.  What it does to a record at a time is right
exactly where the record is not there or its age is below its TTL (`heap_respects_iff`).

## What is here

* `HeapOperation` — the operations of a run, with the time at which each takes place.
* `HeapStore.Respects` — what is to be expected of a key at a time: `get` and `exists` agree, both fail
  where the TTL has run out, and a record whose TTL has not run out is not erased by a read or by a put
  of another key.
* `HeapStore.Held` — the invariant of a run: what is there was put last.
* `Held.respects_iff` — the condition at one key in any state that a run leads to, and
  `heap_respects_iff` at the end of every run.
* `heap_outlived` — a record whose TTL has run out and which `exists` still finds.

The limit on the number of records plays no part here, so it is zero throughout; `HeapEvicting.lean` is
about the limit.
-/

set_option autoImplicit false

namespace MicroStore

/-! ## Runs -/

/-- The operations on a `HeapStore` without a maximum. -/
inductive HeapOperation
  | put (now : UInt32) (key data : Buf) (ttl ts : UInt32) (priority : UInt8)
  | get (now : UInt32) (key : Buf) (out : Bool) (size : Nat)
  | «exists» (key : Buf)
  | remove (key : Buf)
  | setTtlSecs (ttl : UInt32)

namespace HeapOperation

/-- Perform one operation. -/
def perform (hs : HeapStore) : HeapOperation → HeapStore
  | .put now key data ttl ts priority => (hs.put now key data ttl ts priority).2
  | .get now key out size => (hs.get now key out size).2
  | .exists _ => hs
  | .remove key => (hs.remove key).2
  | .setTtlSecs ttl => hs.setTtlSecs ttl

/-- The record of every key that was put last and not removed. -/
def next (m : Key → Option HeapEntry) : HeapOperation → Key → Option HeapEntry
  | .put _ key data ttl ts _ =>
    if key.bytes.length ≤ maxKeyLen ∧ data.bytes.length ≤ maxValueLen then
      Function.update m key.bytes (some ⟨data.bytes, ts, ttl⟩)
    else m
  | .remove key => if key.bytes.length ≤ maxKeyLen then Function.update m key.bytes none else m
  | .get .. | .exists _ | .setTtlSecs _ => m

/-- The store after the operations. -/
def run (ops : List HeapOperation) : HeapStore := ops.foldl perform .new

/-- The records that were put last. -/
def records (ops : List HeapOperation) : Key → Option HeapEntry := ops.foldl next fun _ => none

end HeapOperation

/-- At this time the store treats the key as the TTLs say, of which `m` holds those of the records that
were put last: `get` and `exists` agree, they fail if the record has expired, and neither `get` nor a
put of another key drops a record that has not. -/
structure HeapStore.Respects (hs : HeapStore) (m : Key → Option HeapEntry) (now : UInt32) (k : Key) :
    Prop where
  /-- `get` and `exists` agree. -/
  agree : ∀ (key : Buf) (out : Bool) (size : Nat), key.bytes = k →
    ((hs.get now key out size).1 = none ↔ hs.exists key = false)
  /-- Both fail where the TTL of the last put has run out. -/
  fails : ∀ (key : Buf) (out : Bool) (size : Nat) (e : HeapEntry), key.bytes = k → m k = some e →
    Expired e.ttl hs.policyTtlSecs e.timestamp now →
    (hs.get now key out size).1 = none ∧ hs.exists key = false
  /-- A record whose TTL has not run out is erased neither by a `get` nor by a put of another key. -/
  keeps : ∀ e, hs.data.lookup k = some e → ¬Expired e.ttl hs.policyTtlSecs e.timestamp now →
    (∀ (key : Buf) (out : Bool) (size : Nat), key.bytes = k →
      (hs.get now key out size).2.data.lookup k = some e) ∧
    ∀ (key data : Buf) (ttl ts : UInt32) (priority : UInt8), key.bytes ≠ k →
      (hs.put now key data ttl ts priority).2.data.lookup k = some e

/-! ## The sweep

`sweep` erases all expired records at the beginning of a put, and `get` the one it has found to be
expired.  The age is taken without a check that time has not gone back. -/

namespace HeapStore

/-- Erasing several keys. -/
theorem lookup_foldl_erase {items : List (Sigma fun _ : Key => HeapEntry)}
    {d : AList fun _ : Key => HeapEntry} (k : Key) :
    (items.foldl (fun m it => m.erase it.1) d).lookup k
      = if k ∈ items.map Sigma.fst then none else d.lookup k := by
  induction items generalizing d with
  | nil => rfl
  | cons it items ih =>
    rw [List.foldl_cons, ih, List.map_cons]
    by_cases hk : k = it.1
    · rw [hk, AList.lookup_erase, ite_self, if_pos List.mem_cons_self]
    · rw [AList.lookup_erase_ne hk]
      simp only [List.mem_cons, hk, false_or]

/-- The sweep drops what has expired. -/
theorem lookup_sweep (hs : HeapStore) (now : UInt32) (k : Key) :
    (hs.sweep now).data.lookup k = (hs.data.lookup k).filter fun e => !hs.expired now e := by
  rw [sweep, lookup_foldl_erase]
  cases hl : hs.data.lookup k with
  | none => exact ite_self _
  | some e =>
    have hmem : (⟨k, e⟩ : Sigma fun _ : Key => HeapEntry) ∈ hs.data.entries := AList.mem_lookup_iff.1 hl
    have hiff : k ∈ (hs.data.entries.filter fun it => hs.expired now it.2).map Sigma.fst ↔
        hs.expired now e = true := by
      rw [List.mem_map]
      constructor
      · rintro ⟨⟨k', e'⟩, hit, rfl⟩
        obtain ⟨hit, hexp⟩ := List.mem_filter.1 hit
        have hl' : hs.data.lookup k' = some e' := AList.mem_lookup_iff.2 hit
        rw [hl, Option.some.injEq] at hl'
        rwa [hl']
      · exact fun hexp => ⟨⟨k, e⟩, List.mem_filter.2 ⟨hmem, hexp⟩, rfl⟩
    rw [Option.filter_some]
    cases hexp : hs.expired now e with
    | true => exact if_pos (hiff.2 hexp)
    | false =>
      refine if_neg fun h => ?_
      rw [hiff.1 h] at hexp
      cases hexp

/-- What has expired by the rule has by the age in 32 bits. -/
theorem expired_of_expired {hs : HeapStore} {now : UInt32} {e : HeapEntry}
    (h : Expired e.ttl hs.policyTtlSecs e.timestamp now) : hs.expired now e = true := by
  have heff : hs.effective e = if e.ttl ≠ 0 then e.ttl else hs.policyTtlSecs := by
    rw [effective]
    simp only [UInt32.pos_iff_ne_zero]
  obtain ⟨hne, -, hle⟩ := h
  rw [expired, decide_eq_true_eq, heff]
  exact ⟨UInt32.pos_iff_ne_zero.2 hne, hle⟩

/-- A put without a maximum. -/
theorem lookup_put {hs : HeapStore} (hmax : hs.policyMaxRecs = 0) (now : UInt32) (key data : Buf)
    (ttl ts : UInt32) (priority : UInt8) (k : Key) :
    (hs.put now key data ttl ts priority).2.data.lookup k =
      if key.bytes.length ≤ maxKeyLen ∧ data.bytes.length ≤ maxValueLen then
        if k = key.bytes then some ⟨data.bytes, ts, ttl⟩
        else (hs.data.lookup k).filter fun e => !hs.expired now e
      else hs.data.lookup k := by
  have hno : ¬(0 < (hs.sweep now).policyMaxRecs ∧ (hs.sweep now).data.lookup key.bytes = none) := by
    change ¬(0 < hs.policyMaxRecs ∧ _)
    rw [hmax]
    exact fun h => absurd h.1 (by decide)
  rw [put]
  by_cases hkey : key.bytes.length ≤ maxKeyLen
  · rw [if_neg (Nat.not_lt.2 hkey)]
    by_cases hdata : data.bytes.length ≤ maxValueLen
    · rw [if_neg (Nat.not_lt.2 hdata), if_pos ⟨hkey, hdata⟩]
      dsimp only
      rw [if_neg hno]
      split
      · next hk => rw [hk, AList.lookup_insert]
      · next hk => rw [AList.lookup_insert_ne hk, lookup_sweep]
    · rw [if_pos (Nat.not_le.1 hdata), if_neg fun h => hdata h.2]
  · rw [if_pos (Nat.not_le.1 hkey), if_neg fun h => hkey h.1]

/-- A put leaves the limit alone. -/
theorem put_policy (hs : HeapStore) (now : UInt32) (key data : Buf) (ttl ts : UInt32) (priority : UInt8) :
    (hs.put now key data ttl ts priority).2.policyMaxRecs = hs.policyMaxRecs := by
  rw [put]
  dsimp only
  split_ifs <;> rfl

/-- `get` drops the record if it has expired. -/
theorem lookup_get (hs : HeapStore) (now : UInt32) (key : Buf) (out : Bool) (size : Nat) (k : Key) :
    (hs.get now key out size).2.data.lookup k =
      if key.bytes.length ≤ maxKeyLen ∧ k = key.bytes then
        (hs.data.lookup k).filter fun e => !hs.expired now e
      else hs.data.lookup k := by
  rw [get]
  by_cases hkey : key.bytes.length ≤ maxKeyLen
  · rw [if_neg (Nat.not_lt.2 hkey)]
    by_cases hk : k = key.bytes
    · rw [if_pos ⟨hkey, hk⟩, ← hk]
      cases hl : hs.data.lookup k with
      | none => exact hl
      | some e =>
        rw [Option.filter_some]
        dsimp only
        cases hexp : hs.expired now e with
        | true =>
          rw [if_pos rfl]
          exact AList.lookup_erase ..
        | false =>
          rw [if_neg Bool.false_ne_true]
          exact hl
    · rw [if_neg fun h => hk h.2]
      cases hl : hs.data.lookup key.bytes with
      | none => rfl
      | some e =>
        dsimp only
        split
        · exact AList.lookup_erase_ne hk
        · rfl
  · rw [if_pos (Nat.not_le.1 hkey), if_neg fun h => hkey h.1]

/-- So does a `get`. -/
theorem get_policy (hs : HeapStore) (now : UInt32) (key : Buf) (out : Bool) (size : Nat) :
    (hs.get now key out size).2.policyMaxRecs = hs.policyMaxRecs := by
  rw [get]
  split
  · rfl
  · cases hs.data.lookup key.bytes with
    | none => rfl
    | some e =>
      dsimp only
      split <;> rfl

/-- What `get` answers. -/
theorem get_eq_none {hs : HeapStore} {now : UInt32} {key : Buf} {out : Bool} {size : Nat}
    (hkey : key.bytes.length ≤ maxKeyLen) : (hs.get now key out size).1 = none ↔
      ∀ e, hs.data.lookup key.bytes = some e → hs.expired now e = true := by
  rw [get, if_neg (Nat.not_lt.2 hkey)]
  cases hl : hs.data.lookup key.bytes with
  | none => exact iff_of_true rfl nofun
  | some e =>
    dsimp only
    cases hexp : hs.expired now e with
    | true => exact iff_of_true rfl fun e' he' => by rwa [← Option.some.inj he']
    | false =>
      refine iff_of_false (Option.some_ne_none _) fun h => ?_
      cases hexp.symm.trans (h e rfl)

/-- `exists` looks at the map and at nothing else. -/
theorem exists_eq_false {hs : HeapStore} {key : Buf} (hkey : key.bytes.length ≤ maxKeyLen) :
    hs.exists key = false ↔ hs.data.lookup key.bytes = none := by
  rw [HeapStore.exists, if_neg (Nat.not_lt.2 hkey), Option.isSome_eq_false_iff,
    Option.isNone_iff_eq_none]

/-- What is true between two operations: there is no maximum, and what the store holds was put last. -/
structure Held (hs : HeapStore) (m : Key → Option HeapEntry) : Prop where
  /-- There is no limit. -/
  maxRecs : hs.policyMaxRecs = 0
  /-- What is there was put last. -/
  last : ∀ k e, hs.data.lookup k = some e → m k = some e
  /-- No key is too long. -/
  keys : ∀ k e, hs.data.lookup k = some e → k.length ≤ maxKeyLen

/-- One step keeps the invariant. -/
theorem Held.step {hs : HeapStore} {m : Key → Option HeapEntry} (h : hs.Held m) (op : HeapOperation) :
    (op.perform hs).Held (op.next m) := by
  cases op with
  | put now key data ttl ts priority =>
    have hlookup := lookup_put h.maxRecs now key data ttl ts priority
    refine ⟨(put_policy ..).trans h.maxRecs, fun k e he => ?_, fun k e he => ?_⟩
    · change (hs.put now key data ttl ts priority).2.data.lookup k = some e at he
      rw [hlookup] at he
      rw [HeapOperation.next]
      split at he
      · next hlim =>
        rw [if_pos hlim]
        split at he
        · next hk => rw [hk, Function.update_self, he]
        · next hk =>
          rw [Function.update_of_ne hk]
          exact h.last k e (Option.filter_eq_some_iff.1 he).1
      · next hlim =>
        rw [if_neg hlim]
        exact h.last k e he
    · change (hs.put now key data ttl ts priority).2.data.lookup k = some e at he
      rw [hlookup] at he
      split at he
      · next hlim =>
        split at he
        · next hk => exact hk ▸ hlim.1
        · exact h.keys k e (Option.filter_eq_some_iff.1 he).1
      · exact h.keys k e he
  | get now key out size =>
    have hsub (k : Key) (e : HeapEntry) (he : (hs.get now key out size).2.data.lookup k = some e) :
        hs.data.lookup k = some e := by
      rw [lookup_get] at he
      split at he
      · exact (Option.filter_eq_some_iff.1 he).1
      · exact he
    exact ⟨(get_policy ..).trans h.maxRecs, fun k e he => h.last k e (hsub k e he),
      fun k e he => h.keys k e (hsub k e he)⟩
  | «exists» key => exact h
  | remove key =>
    rw [HeapOperation.perform, HeapOperation.next, remove]
    by_cases hkey : key.bytes.length ≤ maxKeyLen
    · rw [if_neg (Nat.not_lt.2 hkey), if_pos hkey]
      have hsub (k : Key) (e : HeapEntry) (he : (hs.data.erase key.bytes).lookup k = some e) :
          k ≠ key.bytes ∧ hs.data.lookup k = some e := by
        by_cases hk : k = key.bytes
        · rw [hk, AList.lookup_erase] at he
          cases he
        · exact ⟨hk, by rwa [AList.lookup_erase_ne hk] at he⟩
      refine ⟨h.maxRecs, fun k e he => ?_, fun k e he => h.keys k e (hsub k e he).2⟩
      rw [Function.update_of_ne (hsub k e he).1]
      exact h.last k e (hsub k e he).2
    · rw [if_pos (Nat.not_le.1 hkey), if_neg hkey]
      exact h
  | setTtlSecs ttl => exact ⟨h.maxRecs, h.last, h.keys⟩

/-- The invariant holds after every run. -/
theorem held_run (ops : List HeapOperation) : (HeapOperation.run ops).Held (HeapOperation.records ops) := by
  have hrun (hs : HeapStore) (m : Key → Option HeapEntry) (h : hs.Held m) :
      (ops.foldl HeapOperation.perform hs).Held (ops.foldl HeapOperation.next m) := by
    induction ops generalizing hs m with
    | nil => exact h
    | cons op ops ih => exact ih _ _ (h.step op)
  exact hrun .new _ ⟨rfl, nofun, nofun⟩

/-- The store treats a key right where it has no record of it that has expired by its age in 32 bits. -/
theorem Held.respects_iff {hs : HeapStore} {m : Key → Option HeapEntry} (h : hs.Held m) (now : UInt32)
    (k : Key) : hs.Respects m now k ↔ ∀ e, hs.data.lookup k = some e → hs.expired now e = false := by
  constructor
  · intro hr e he
    have hkey : (Buf.at k).bytes.length ≤ maxKeyLen := h.keys k e he
    have hex : hs.exists (.at k) ≠ false := by
      rw [ne_eq, exists_eq_false hkey]
      intro hnone
      cases he.symm.trans hnone
    have hget := mt (hr.agree (.at k) true 0 rfl).1 hex
    rw [get_eq_none hkey] at hget
    rw [← Bool.not_eq_true]
    exact fun hexp => hget fun e' he' => by
      rwa [← Option.some.inj (he.symm.trans he')]
  · intro hno
    have hlong {key : Buf} (hk : key.bytes = k) (hkey : ¬key.bytes.length ≤ maxKeyLen) :
        ∀ out size, (hs.get now key out size).1 = none ∧ hs.exists key = false := by
      intro out size
      rw [get, HeapStore.exists, if_pos (Nat.not_le.1 hkey), if_pos (Nat.not_le.1 hkey)]
      exact ⟨rfl, rfl⟩
    refine ⟨fun key out size hk => ?_, fun key out size e hk hm hexp => ?_, fun e he _ => ⟨?_, ?_⟩⟩
    · by_cases hkey : key.bytes.length ≤ maxKeyLen
      · rw [get_eq_none hkey, exists_eq_false hkey, hk]
        cases hl : hs.data.lookup k with
        | none => exact iff_of_true nofun rfl
        | some e =>
          refine iff_of_false (fun hexp => ?_) (Option.some_ne_none _)
          cases (hno e hl).symm.trans (hexp e rfl)
      · exact iff_of_true (hlong hk hkey out size).1 (hlong hk hkey out size).2
    · by_cases hkey : key.bytes.length ≤ maxKeyLen
      · have hnone : hs.data.lookup key.bytes = none := by
          rw [hk]
          cases hl : hs.data.lookup k with
          | none => rfl
          | some e' =>
            obtain rfl := Option.some.inj (hm.symm.trans (h.last k e' hl))
            cases (hno e hl).symm.trans (expired_of_expired hexp)
        rw [get_eq_none hkey, exists_eq_false hkey]
        exact ⟨fun e' he' => (nomatch hnone.symm.trans he'), hnone⟩
      · exact hlong hk hkey out size
    · intro key out size hk
      rw [lookup_get, he, Option.filter_some, hno e he]
      exact ite_self _
    · intro key data ttl ts priority hk
      rw [lookup_put h.maxRecs, if_neg (Ne.symm hk), he, Option.filter_some, hno e he]
      exact ite_self _

/-- What the age in 32 bits says. -/
theorem expired_eq_false {hs : HeapStore} {now : UInt32} {e : HeapEntry} : hs.expired now e = false ↔
    hs.effective e = 0 ∨ (now - e.timestamp) < hs.effective e := by
  rw [← Bool.not_eq_true, expired, decide_eq_true_eq, not_and_or, UInt32.pos_iff_ne_zero, not_not,
    UInt32.not_le]

end HeapStore

/-- **TTLs in memory** are respected exactly where the key has no record, its effective TTL is zero or
greater than its age in 32 bits. -/
theorem heap_respects_iff (ops : List HeapOperation) (now : UInt32) (k : Key) :
    (HeapOperation.run ops).Respects (HeapOperation.records ops) now k ↔
      ∀ e, (HeapOperation.run ops).data.lookup k = some e →
        (HeapOperation.run ops).effective e = 0 ∨
          now - e.timestamp < (HeapOperation.run ops).effective e := by
  rw [(HeapStore.held_run ops).respects_iff]
  exact forall₂_congr fun e _ => HeapStore.expired_eq_false

/-- An expired record still exists, and a record from the future is dropped. -/
theorem heap_outlived :
    let ops : List HeapOperation := [.put 0 (.at [97]) (.at [1]) 5 0 0]
    let ops' : List HeapOperation := [.put 0 (.at [97]) (.at [1]) 5 10 0]
    ¬(HeapOperation.run ops).Respects (HeapOperation.records ops) 5 [97] ∧
      ¬(HeapOperation.run ops').Respects (HeapOperation.records ops') 0 [97] := by
  intro ops ops'
  rw [HeapStore.Held.respects_iff (HeapStore.held_run ops),
    HeapStore.Held.respects_iff (HeapStore.held_run ops')]
  exact ⟨fun h => absurd (h ⟨[1], 0, 5⟩ rfl) (by decide), fun h => absurd (h ⟨[1], 10, 5⟩ rfl) (by decide)⟩

end MicroStore
