import MicroStore.HeapExpiring
import MicroStore.Library.Retention
import Mathlib.Data.List.Lex

/-!
# The records a full `HeapStore` keeps

A put of a new key into a full `HeapStore` makes room by dropping `data_.begin()`, the least key,
whatever its age.  So a store with `max_recs` is no cache of what was put last: all but one of its
places belong to the greatest keys, and a small key does not survive the next put of a new one.

## What is here

* `HeapStore.evictLoop_topPart` — dropping the least key over and over leaves the greatest keys
  (`TopPart`, from `Library/Retention.lean`).
* `HeapStore.Bounded` — the invariant of every run with a limit: no more records than that, each of them
  the last put of its key.
* `HeapStore.Greatest` — the invariant where nothing expires: a key that has been put, and has not been
  removed, is there if fewer greater keys have ever been put than there are places but one.
* `size_run` — where nothing is removed either, no place is left empty.
* `heap_keeps_greatest` — the three together, for all runs.

The key that was put last has a place of its own, since it is inserted after the eviction; it is the one
place that is not for the greatest keys.
-/

set_option autoImplicit false

namespace MicroStore

/-- The order of the bytes. -/
local instance byteOrder : LinearOrder UInt8 where
  le := (· ≤ ·)
  lt := (· < ·)
  le_refl := UInt8.le_refl
  le_trans _ _ _ := UInt8.le_trans
  lt_iff_le_not_ge a b := by
    rw [UInt8.lt_iff_toNat_lt, UInt8.le_iff_toNat_le, UInt8.le_iff_toNat_le]
    omega
  le_antisymm _ _ := UInt8.le_antisymm
  le_total := UInt8.le_total
  toDecidableLE := inferInstance
  toDecidableLT := inferInstance
  toDecidableEq := inferInstance

/-! ## Dropping the least key

The keys of a store as a finite set, with the byte order of `std::map`. -/

/-- The keys of a map. -/
def keySet (d : AList fun _ : Key => HeapEntry) : Finset Key := d.keys.toFinset

section keys

variable {d : AList fun _ : Key => HeapEntry} {k : Key}

/-- The keys that are there. -/
theorem mem_keySet : k ∈ keySet d ↔ (d.lookup k).isSome := by
  rw [keySet, List.mem_toFinset, ← AList.mem_keys, ← AList.lookup_isSome]

/-- The others. -/
theorem notMem_keySet : k ∉ keySet d ↔ d.lookup k = none := by
  rw [mem_keySet, Option.not_isSome_iff_eq_none]

/-- As many as there are entries. -/
theorem card_keySet (d : AList fun _ : Key => HeapEntry) : (keySet d).card = d.keys.length :=
  List.toFinset_card_of_nodup d.keys_nodup

/-- A put adds its key. -/
theorem keySet_insert (k : Key) (e : HeapEntry) : keySet (d.insert k e) = insert k (keySet d) := by
  ext k'
  simp only [keySet, List.mem_toFinset, ← AList.mem_keys, Finset.mem_insert, AList.mem_insert]

/-- A removal takes it out. -/
theorem keySet_erase (k : Key) : keySet (d.erase k) = (keySet d).erase k := by
  ext k'
  simp only [keySet, List.mem_toFinset, ← AList.mem_keys, Finset.mem_erase, AList.mem_erase]

end keys

/-! ## Runs -/

namespace HeapOperation

/-- Nothing is given a TTL. -/
def Timeless : HeapOperation → Prop
  | .put _ _ _ ttl _ _ => ttl = 0
  | .setTtlSecs ttl => ttl = 0
  | .get .. | .exists _ | .remove _ => True

/-- Nothing is removed. -/
def Keeps : HeapOperation → Prop
  | .remove _ => False
  | .put .. | .get .. | .exists _ | .setTtlSecs _ => True

/-- The keys that have been put, whether or not they are still there. -/
def putKeys (E : Finset Key) : HeapOperation → Finset Key
  | .put _ key data _ _ _ =>
    if key.bytes.length ≤ maxKeyLen ∧ data.bytes.length ≤ maxValueLen then insert key.bytes E else E
  | .get .. | .exists _ | .remove _ | .setTtlSecs _ => E

/-- The keys that the operations put. -/
def everPut (ops : List HeapOperation) : Finset Key := ops.foldl putKeys ∅

/-- The store after the operations, with room for so many records. -/
def runWith (limit : UInt32) (ops : List HeapOperation) : HeapStore :=
  ops.foldl perform (HeapStore.new.setMaxRecs limit)

end HeapOperation

namespace HeapStore

/-- `data_.begin()` is the least key. -/
theorem least_eq_some {ks : List Key} {k : Key} (h : least ks = some k) : k ∈ ks ∧ ∀ y ∈ ks, k ≤ y := by
  have loop (rest : List Key) (first : Key) :
      rest.foldl (fun least k => if k < least then k else least) first ∈ first :: rest ∧
        ∀ y ∈ first :: rest, rest.foldl (fun least k => if k < least then k else least) first ≤ y := by
    induction rest generalizing first with
    | nil => exact ⟨List.mem_cons_self, fun y hy => (List.mem_singleton.1 hy).ge⟩
    | cons x rest ih =>
      rw [List.foldl_cons]
      obtain ⟨hmem, hle⟩ := ih (if x < first then x else first)
      have hhead := hle _ List.mem_cons_self
      refine ⟨?_, fun y hy => ?_⟩
      · rcases List.mem_cons.1 hmem with he | hin
        · rw [he]
          split
          · exact List.mem_cons_of_mem _ List.mem_cons_self
          · exact List.mem_cons_self
        · exact List.mem_cons_of_mem _ (List.mem_cons_of_mem _ hin)
      · rcases List.mem_cons.1 hy with rfl | hy
        · refine hhead.trans ?_
          split
          · next hlt => exact hlt.le
          · exact le_rfl
        rcases List.mem_cons.1 hy with rfl | hy
        · refine hhead.trans ?_
          split
          · exact le_rfl
          · next hlt => exact not_lt.1 hlt
        · exact hle y (List.mem_cons_of_mem _ hy)
  cases ks with
  | nil => cases h
  | cons first rest =>
    obtain rfl := Option.some.inj h
    exact loop rest first

/-- **The loop leaves the greatest keys**, with their entries. -/
theorem evictLoop_topPart {maxRecs fuel : Nat} {d : AList fun _ : Key => HeapEntry} (hpos : 0 < maxRecs)
    (hfuel : d.keys.length ≤ fuel) :
    TopPart (keySet (evictLoop maxRecs fuel d)) (keySet d) (maxRecs - 1) ∧
      ∀ k ∈ keySet (evictLoop maxRecs fuel d), (evictLoop maxRecs fuel d).lookup k = d.lookup k := by
  induction fuel generalizing d with
  | zero =>
    refine ⟨.of_card_le ?_, fun _ _ => rfl⟩
    rw [evictLoop, card_keySet]
    omega
  | succ fuel ih =>
    rw [evictLoop]
    split
    · refine ⟨.of_card_le ?_, fun _ _ => rfl⟩
      rw [card_keySet]
      omega
    next hfull =>
    cases hk : least d.keys with
    | none =>
      refine absurd hk ?_
      cases hkeys : d.keys with
      | nil =>
        rw [hkeys] at hfull
        exact absurd hpos hfull
      | cons k ks => exact fun h => by cases h
    | some k =>
      obtain ⟨hmem, hleast⟩ := least_eq_some hk
      have hlen : (d.erase k).keys.length = d.keys.length - 1 := by
        have hin : k ∈ keySet d := List.mem_toFinset.2 hmem
        rw [← card_keySet, keySet_erase, Finset.card_erase_of_mem hin, card_keySet]
      obtain ⟨htop, hlookup⟩ := @ih (d.erase k) (by omega)
      rw [keySet_erase] at htop
      refine ⟨htop.of_erase (List.mem_toFinset.2 hmem) (fun y hy => hleast y (List.mem_toFinset.1 hy))
        ?_, fun k' hk' => ?_⟩
      · rw [card_keySet]
        omega
      · refine (hlookup k' hk').trans (AList.lookup_erase_ne ?_)
        exact Finset.ne_of_mem_erase (htop.subset hk')

/-- What an accepted put makes of the map: the new key joins the greatest of the others. -/
theorem put_data {hs : HeapStore} (hmax : 0 < hs.policyMaxRecs) (now : UInt32) {key data : Buf}
    (hkey : key.bytes.length ≤ maxKeyLen) (hdata : data.bytes.length ≤ maxValueLen) (ttl ts : UInt32)
    (priority : UInt8) : ∃ d, (hs.put now key data ttl ts priority).2
        = { hs with data := d.insert key.bytes ⟨data.bytes, ts, ttl⟩ } ∧
      (∀ k ∈ keySet d, d.lookup k = (hs.sweep now).data.lookup k) ∧
      (key.bytes ∈ keySet (hs.sweep now).data → d = (hs.sweep now).data) ∧
      (key.bytes ∉ keySet (hs.sweep now).data →
        TopPart (keySet d) (keySet (hs.sweep now).data) (hs.policyMaxRecs.toNat - 1)) := by
  rw [put, if_neg (Nat.not_lt.2 hkey), if_neg (Nat.not_lt.2 hdata)]
  dsimp only
  have hmax' : 0 < (hs.sweep now).policyMaxRecs := hmax
  by_cases hnone : (hs.sweep now).data.lookup key.bytes = none
  · rw [if_pos ⟨hmax', hnone⟩]
    obtain ⟨htop, hlookup⟩ := evictLoop_topPart (d := (hs.sweep now).data)
      (show 0 < hs.policyMaxRecs.toNat from hmax) le_rfl
    exact ⟨_, rfl, hlookup, fun hin => absurd hin (notMem_keySet.2 hnone), fun _ => htop⟩
  · rw [if_neg fun h => hnone h.2]
    exact ⟨_, rfl, fun _ _ => rfl, fun _ => rfl, fun hin => absurd (notMem_keySet.1 hin) hnone⟩

/-- A put that is refused changes nothing. -/
theorem put_rejected {hs : HeapStore} {now : UInt32} {key data : Buf} {ttl ts : UInt32}
    {priority : UInt8} (h : ¬(key.bytes.length ≤ maxKeyLen ∧ data.bytes.length ≤ maxValueLen)) :
    (hs.put now key data ttl ts priority).2 = hs := by
  rw [put]
  by_cases hkey : key.bytes.length ≤ maxKeyLen
  · rw [if_neg (Nat.not_lt.2 hkey), if_pos (Nat.not_le.1 fun hdata => h ⟨hkey, hdata⟩)]
  · rw [if_pos (Nat.not_le.1 hkey)]

/-! ## Runs with a maximum -/

/-- Whatever is kept is what was put last, and there is not too much of it. -/
structure Bounded (hs : HeapStore) (limit : UInt32) (m : Key → Option HeapEntry) : Prop where
  /-- The limit is the given one. -/
  maxRecs : hs.policyMaxRecs = limit
  /-- What is there was put last. -/
  last : ∀ k e, hs.data.lookup k = some e → m k = some e
  /-- No more records than the limit. -/
  size : hs.data.keys.length ≤ limit.toNat

/-- Fewer records are no more keys. -/
theorem size_le_of_sub {d d' : AList fun _ : Key => HeapEntry}
    (h : ∀ k e, d'.lookup k = some e → d.lookup k = some e) : d'.keys.length ≤ d.keys.length := by
  rw [← card_keySet, ← card_keySet]
  refine Finset.card_le_card fun k hk => ?_
  obtain ⟨e, he⟩ := Option.isSome_iff_exists.1 (mem_keySet.1 hk)
  rw [mem_keySet, h k e he]
  rfl

/-- A `get` adds nothing. -/
theorem sub_get {hs : HeapStore} {now : UInt32} {key : Buf} {out : Bool} {size : Nat} (k : Key)
    (e : HeapEntry) (he : (hs.get now key out size).2.data.lookup k = some e) : hs.data.lookup k = some e := by
  rw [lookup_get] at he
  split at he
  · exact (Option.filter_eq_some_iff.1 he).1
  · exact he

/-- Nor does a sweep. -/
theorem sub_sweep {hs : HeapStore} {now : UInt32} (k : Key) (e : HeapEntry)
    (he : (hs.sweep now).data.lookup k = some e) : hs.data.lookup k = some e := by
  rw [lookup_sweep] at he
  exact (Option.filter_eq_some_iff.1 he).1

/-- Nor a removal. -/
theorem sub_erase {hs : HeapStore} {x : Key} (k : Key) (e : HeapEntry)
    (he : (hs.data.erase x).lookup k = some e) : k ≠ x ∧ hs.data.lookup k = some e := by
  by_cases hk : k = x
  · rw [hk, AList.lookup_erase] at he
    cases he
  · exact ⟨hk, by rwa [AList.lookup_erase_ne hk] at he⟩

/-- One step keeps the invariant. -/
theorem Bounded.step {hs : HeapStore} {limit : UInt32} {m : Key → Option HeapEntry}
    (h : hs.Bounded limit m) (hlimit : 0 < limit) (op : HeapOperation) : (op.perform hs).Bounded limit (op.next m) := by
  have hpos : 0 < limit.toNat := hlimit
  cases op with
  | put now key data ttl ts priority =>
    rw [HeapOperation.perform, HeapOperation.next]
    split
    next hlim =>
      obtain ⟨d, hd, hlookup, hold, hnew⟩ :=
        put_data (h.maxRecs ▸ hlimit) now hlim.1 hlim.2 ttl ts priority
      rw [hd]
      refine ⟨h.maxRecs, fun k e he => ?_, ?_⟩
      · dsimp only at he
        by_cases hk : k = key.bytes
        · rw [hk, AList.lookup_insert] at he
          rw [hk, Function.update_self, he]
        · rw [AList.lookup_insert_ne hk] at he
          rw [Function.update_of_ne hk]
          have hin : k ∈ keySet d := by
            rw [mem_keySet, he]
            rfl
          exact h.last k e (sub_sweep k e ((hlookup k hin).symm.trans he))
      · have hsweep := size_le_of_sub (@sub_sweep hs now)
        have hsize := h.size
        dsimp only
        rw [← card_keySet, keySet_insert]
        by_cases hin : key.bytes ∈ keySet (hs.sweep now).data
        · rw [hold hin, Finset.insert_eq_of_mem hin, card_keySet]
          omega
        · have hcard := (hnew hin).card
          have hins := Finset.card_insert_le key.bytes (keySet d)
          rw [h.maxRecs] at hcard
          omega
    next hlim =>
      rw [put_rejected hlim]
      exact h
  | get now key out size =>
    exact ⟨(get_policy ..).trans h.maxRecs, fun k e he => h.last k e (sub_get k e he),
      (size_le_of_sub sub_get).trans h.size⟩
  | «exists» key => exact h
  | remove key =>
    rw [HeapOperation.perform, HeapOperation.next, remove]
    by_cases hkey : key.bytes.length ≤ maxKeyLen
    · rw [if_neg (Nat.not_lt.2 hkey), if_pos hkey]
      refine ⟨h.maxRecs, fun k e he => ?_,
        (size_le_of_sub fun k e he => (sub_erase k e he).2).trans h.size⟩
      rw [Function.update_of_ne (sub_erase k e he).1]
      exact h.last k e (sub_erase k e he).2
    · rw [if_pos (Nat.not_le.1 hkey), if_neg hkey]
      exact h
  | setTtlSecs ttl => exact ⟨h.maxRecs, h.last, h.size⟩

/-- A `get` leaves the policy alone. -/
theorem get_ttl (hs : HeapStore) (now : UInt32) (key : Buf) (out : Bool) (size : Nat) :
    (hs.get now key out size).2.policyTtlSecs = hs.policyTtlSecs := by
  rw [get]
  split
  · rfl
  · cases hs.data.lookup key.bytes with
    | none => rfl
    | some e =>
      dsimp only
      split <;> rfl

/-- Nothing expires, and a key goes only once there are enough greater ones, whether or not these are
still there. -/
structure Greatest (hs : HeapStore) (limit : UInt32) (m : Key → Option HeapEntry) (E : Finset Key) :
    Prop where
  /-- The policy has no TTL. -/
  policy : hs.policyTtlSecs = 0
  /-- No record has a TTL. -/
  ttl : ∀ k e, hs.data.lookup k = some e → e.ttl = 0
  /-- The set contains every key that has been put. -/
  put : ∀ k e, m k = some e → k ∈ E
  /-- A key with few greater ones in the set is there. -/
  few : ∀ k e, m k = some e → (E.filter fun y => k < y).card + 1 < limit.toNat →
    hs.data.lookup k = some e

namespace Greatest

variable {hs : HeapStore} {limit : UInt32} {m : Key → Option HeapEntry} {E : Finset Key}

/-- Nothing expires. -/
theorem expired (h : hs.Greatest limit m E) (now : UInt32) {k : Key} {e : HeapEntry}
    (he : hs.data.lookup k = some e) : hs.expired now e = false := by
  refine expired_eq_false.2 (.inl ?_)
  rw [effective, h.ttl k e he, if_neg (by decide), h.policy]

/-- Nothing has expired, so a sweep does nothing. -/
theorem lookup_sweep (h : hs.Greatest limit m E) (now : UInt32) (k : Key) :
    (hs.sweep now).data.lookup k = hs.data.lookup k := by
  rw [HeapStore.lookup_sweep]
  cases hl : hs.data.lookup k with
  | none => rfl
  | some e => rw [Option.filter_some, h.expired now hl, Bool.not_false, if_pos rfl]

/-- So a `get` changes nothing. -/
theorem lookup_get (h : hs.Greatest limit m E) (now : UInt32) (key : Buf) (out : Bool) (size : Nat)
    (k : Key) : (hs.get now key out size).2.data.lookup k = hs.data.lookup k := by
  rw [HeapStore.lookup_get, ← HeapStore.lookup_sweep, h.lookup_sweep, ite_self]

/-- Nor does a sweep. -/
theorem keySet_sweep (h : hs.Greatest limit m E) (now : UInt32) :
    keySet (hs.sweep now).data = keySet hs.data := by
  ext k
  rw [mem_keySet, mem_keySet, h.lookup_sweep]

/-- What is kept has been put. -/
theorem keySet_subset (h : hs.Greatest limit m E) (hb : hs.Bounded limit m) : keySet hs.data ⊆ E := by
  intro k hk
  obtain ⟨e, he⟩ := Option.isSome_iff_exists.1 (mem_keySet.1 hk)
  exact h.put k e (hb.last k e he)

/-- One step keeps the invariant. -/
theorem step (h : hs.Greatest limit m E) (hb : hs.Bounded limit m) (hlimit : 0 < limit)
    {op : HeapOperation} (hop : op.Timeless) : (op.perform hs).Greatest limit (op.next m) (op.putKeys E) := by
  cases op with
  | put now key data ttl ts priority =>
    rw [HeapOperation.perform, HeapOperation.next, HeapOperation.putKeys]
    split
    next hlim =>
      obtain ⟨d, hd, hlookup, hold, hnew⟩ :=
        put_data (hb.maxRecs ▸ hlimit) now hlim.1 hlim.2 ttl ts priority
      rw [hd]
      refine ⟨h.policy, fun k e he => ?_, fun k e he => ?_, fun k e he hfew => ?_⟩
      · dsimp only at he
        by_cases hk : k = key.bytes
        · rw [hk, AList.lookup_insert] at he
          rw [← Option.some.inj he]
          exact hop
        · rw [AList.lookup_insert_ne hk] at he
          have hin : k ∈ keySet d := by
            rw [mem_keySet, he]
            rfl
          exact h.ttl k e (sub_sweep k e ((hlookup k hin).symm.trans he))
      · by_cases hk : k = key.bytes
        · exact hk ▸ Finset.mem_insert_self ..
        · rw [Function.update_of_ne hk] at he
          exact Finset.mem_insert_of_mem (h.put k e he)
      · dsimp only
        by_cases hk : k = key.bytes
        · rw [hk, Function.update_self] at he
          rw [hk, AList.lookup_insert, he]
        rw [Function.update_of_ne hk] at he
        rw [AList.lookup_insert_ne hk]
        have hle := Finset.card_le_card
          (Finset.filter_subset_filter (fun y => k < y) (Finset.subset_insert key.bytes E))
        have hl := h.few k e he (by omega)
        have hkin : k ∈ keySet (hs.sweep now).data := by
          rw [h.keySet_sweep, mem_keySet, hl]
          rfl
        have hin : k ∈ keySet d := by
          by_cases hkey : key.bytes ∈ keySet (hs.sweep now).data
          · rwa [hold hkey]
          · refine (hnew hkey).mem_of_few hkin fun G hG => ?_
            have hsub : G ⊆ E.filter fun y => k < y := fun y hy => Finset.mem_filter.2
              ⟨h.keySet_subset hb (h.keySet_sweep now ▸ (hG y hy).1), (hG y hy).2⟩
            have hcard := Finset.card_le_card hsub
            rw [hb.maxRecs]
            omega
        rw [hlookup k hin, h.lookup_sweep, hl]
    next hlim =>
      rw [put_rejected hlim]
      exact h
  | get now key out size =>
    refine ⟨?_, fun k e he => h.ttl k e (sub_get k e he), h.put, fun k e he hfew => ?_⟩
    · exact (get_ttl ..).trans h.policy
    · exact (h.lookup_get now key out size k).trans (h.few k e he hfew)
  | «exists» key => exact h
  | remove key =>
    rw [HeapOperation.perform, HeapOperation.next, HeapOperation.putKeys, remove]
    by_cases hkey : key.bytes.length ≤ maxKeyLen
    · rw [if_neg (Nat.not_lt.2 hkey), if_pos hkey]
      have hne {k : Key} {e : HeapEntry} (he : Function.update m key.bytes none k = some e) :
          k ≠ key.bytes ∧ m k = some e := by
        by_cases hk : k = key.bytes
        · rw [hk, Function.update_self] at he
          cases he
        · exact ⟨hk, by rwa [Function.update_of_ne hk] at he⟩
      refine ⟨h.policy, fun k e he => h.ttl k e (sub_erase k e he).2,
        fun k e he => h.put k e (hne he).2, fun k e he hfew => ?_⟩
      exact (AList.lookup_erase_ne (hne he).1).trans (h.few k e (hne he).2 hfew)
    · rw [if_pos (Nat.not_le.1 hkey), if_neg hkey]
      exact h
  | setTtlSecs ttl => exact ⟨hop, h.ttl, h.put, h.few⟩

/-- Without removals the store is full as soon as it can be. -/
theorem size_step (h : hs.Greatest limit m E) (hb : hs.Bounded limit m) (hlimit : 0 < limit)
    {op : HeapOperation} (hop : op.Keeps) (hsize : hs.data.keys.length = min limit.toNat E.card) :
    (op.perform hs).data.keys.length = min limit.toNat (op.putKeys E).card := by
  cases op with
  | put now key data ttl ts priority =>
    rw [HeapOperation.perform, HeapOperation.putKeys]
    split
    next hlim =>
      obtain ⟨d, hd, -, hold, hnew⟩ := put_data (hb.maxRecs ▸ hlimit) now hlim.1 hlim.2 ttl ts priority
      rw [hd]
      dsimp only
      rw [h.keySet_sweep] at hold hnew
      rw [← card_keySet] at hsize
      rw [← card_keySet, keySet_insert]
      have hpos : 0 < limit.toNat := hlimit
      have hsub := h.keySet_subset hb
      by_cases hin : key.bytes ∈ keySet hs.data
      · rw [hold hin, h.keySet_sweep, Finset.insert_eq_of_mem hin, Finset.insert_eq_of_mem (hsub hin)]
        exact hsize
      · have hnot : key.bytes ∉ keySet d := fun hmem => hin ((hnew hin).subset hmem)
        have hcard := (hnew hin).card
        rw [hb.maxRecs] at hcard
        rw [Finset.card_insert_of_notMem hnot, hcard]
        by_cases hE : key.bytes ∈ E
        · -- it has been dropped, so the store is full
          have hlt := Finset.card_lt_card
            (Finset.ssubset_iff_subset_ne.2 ⟨hsub, fun he => hin (he ▸ hE)⟩)
          rw [Finset.insert_eq_of_mem hE]
          omega
        · rw [Finset.card_insert_of_notMem hE]
          omega
    next hlim =>
      rw [put_rejected hlim]
      exact hsize
  | get now key out size =>
    refine Eq.trans ?_ hsize
    rw [← card_keySet, ← card_keySet]
    congr 1
    ext k
    rw [mem_keySet, mem_keySet, HeapOperation.perform, h.lookup_get]
  | «exists» key => exact hsize
  | remove key => exact hop.elim
  | setTtlSecs ttl => exact hsize

end Greatest

/-- What is kept after every run was put last. -/
theorem bounded_run {limit : UInt32} (hlimit : 0 < limit) (ops : List HeapOperation) :
    (HeapOperation.runWith limit ops).Bounded limit (HeapOperation.records ops) := by
  induction ops using List.reverseRecOn with
  | nil => exact ⟨rfl, nofun, Nat.zero_le _⟩
  | append_singleton ops op ih =>
    rw [HeapOperation.runWith, HeapOperation.records, List.foldl_append, List.foldl_append]
    exact ih.step hlimit op

/-- After every run without TTLs the greatest keys are kept. -/
theorem greatest_run {limit : UInt32} (hlimit : 0 < limit) (ops : List HeapOperation)
    (htime : ∀ op ∈ ops, op.Timeless) : (HeapOperation.runWith limit ops).Greatest limit
      (HeapOperation.records ops) (HeapOperation.everPut ops) := by
  induction ops using List.reverseRecOn with
  | nil => exact ⟨rfl, nofun, nofun, nofun⟩
  | append_singleton ops op ih =>
    have hop := htime op List.mem_concat_self
    have ih := ih fun op hmem => htime op (List.mem_append_left _ hmem)
    rw [HeapOperation.runWith, HeapOperation.records, HeapOperation.everPut, List.foldl_append,
      List.foldl_append, List.foldl_append]
    exact ih.step (bounded_run hlimit ops) hlimit hop

/-- After every run without TTLs and removals there are as many records as there can be. -/
theorem size_run {limit : UInt32} (hlimit : 0 < limit) (ops : List HeapOperation)
    (htime : ∀ op ∈ ops, op.Timeless) (hkeep : ∀ op ∈ ops, op.Keeps) :
    (HeapOperation.runWith limit ops).size = min limit.toNat (HeapOperation.everPut ops).card := by
  induction ops using List.reverseRecOn with
  | nil => exact (Nat.min_zero _).symm
  | append_singleton ops op ih =>
    have htime' (op : HeapOperation) (hmem : op ∈ ops) := htime op (List.mem_append_left _ hmem)
    have ih := ih htime' fun op hmem => hkeep op (List.mem_append_left _ hmem)
    rw [HeapOperation.runWith, HeapOperation.everPut, List.foldl_append, List.foldl_append]
    exact (greatest_run hlimit ops htime').size_step (bounded_run hlimit ops) hlimit
      (hkeep op List.mem_concat_self) ih

end HeapStore

/-- **A `HeapStore` with a maximum** holds no more records than that, each of them the last put of its
key.  Where nothing expires, all the places but one are kept for the greatest keys that have ever been
put, in whatever order; and where nothing is removed either, no place is left empty. -/
theorem heap_keeps_greatest {limit : UInt32} (hlimit : 0 < limit) (ops : List HeapOperation) :
    (HeapOperation.runWith limit ops).size ≤ limit.toNat ∧
      (∀ k e, (HeapOperation.runWith limit ops).data.lookup k = some e →
        HeapOperation.records ops k = some e) ∧
      ((∀ op ∈ ops, op.Timeless) →
        (∀ k e, HeapOperation.records ops k = some e →
          ((HeapOperation.everPut ops).filter fun y => k < y).card + 1 < limit.toNat →
          (HeapOperation.runWith limit ops).data.lookup k = some e) ∧
        ((∀ op ∈ ops, op.Keeps) → (HeapOperation.runWith limit ops).size
          = min limit.toNat (HeapOperation.everPut ops).card)) :=
  have hb := HeapStore.bounded_run hlimit ops
  ⟨hb.size, hb.last, fun htime =>
    ⟨(HeapStore.greatest_run hlimit ops htime).few, HeapStore.size_run hlimit ops htime⟩⟩

/-- With room for two the first of three keys stays and the second goes. -/
theorem heap_keeps_greatest_two :
    let ops : List HeapOperation := [.put 0 (.at [9]) (.at [1]) 0 0 0,
      .put 1 (.at [5]) (.at [2]) 0 1 0, .put 2 (.at [7]) (.at [3]) 0 2 0]
    (HeapOperation.runWith 2 ops).size = 2 ∧
      (HeapOperation.runWith 2 ops).data.lookup [9] = some ⟨[1], 0, 0⟩ ∧
      (HeapOperation.runWith 2 ops).data.lookup [5] = none := by
  intro ops
  have htime : ∀ op ∈ ops, op.Timeless := by
    simp [ops, HeapOperation.Timeless]
  have hkeep : ∀ op ∈ ops, op.Keeps := by
    simp [ops, HeapOperation.Keeps]
  obtain ⟨-, -, h⟩ := @heap_keeps_greatest 2 (by decide) ops
  obtain ⟨hfew, hsize⟩ := h htime
  exact ⟨(hsize hkeep).trans (by decide), hfew [9] _ (by decide) (by decide), by decide⟩

end MicroStore
