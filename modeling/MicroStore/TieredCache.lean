import MicroStore.TypedTieredStore

/-!
# The slots as a map

The chains of the buckets and the LRU list keep track of the valid slots (`Tiered.Wf`), so the slots are
a finite map from keys to their members (`Tiered.cell`), and every change of a slot is a change of that
map at one key.

## What is here

* `Tiered.Wf` — the invariant: the LRU list goes through the valid slots, each chain through those of
  its bucket, and no two valid slots have the same key.
* `Tiered.cell` — the map.  `Wf.find_eq_some` says that the lookup over the chains finds it.
* `Wf.set`, `Wf.touch`, `Wf.removeSlot`, `Wf.link` — the four changes of the slots keep the invariant.
* `Wf.cell_set`, `cell_touch`, `Wf.cell_removeSlot`, `Wf.cell_link` — and what each of them does to the
  map.
* `Tiered.Free`, `Wf.lru_ne_nil` — a free slot, or else one on the LRU list.

Whatever is proved later of the operations is about this map; slots, chains and lists do not occur in it
any more.
-/

set_option autoImplicit false

namespace MicroStore

namespace Tiered

variable {κ υ : Type} {ty : Typed κ υ} {t : Tiered κ υ} {i : Nat} {s : Slot κ υ}

/-! ## Slots

What a change of one slot does to the others, which is nothing. -/

/-- The slot that is set. -/
theorem set_slots_self (t : Tiered κ υ) (i : Nat) (s : Slot κ υ) : (t.set i s).slots i = s :=
  Function.update_self ..

/-- The other slots. -/
theorem set_slots_of_ne {j : Nat} (hj : j ≠ i) : (t.set i s).slots j = t.slots j :=
  Function.update_of_ne hj ..

/-- The slot after its members have been set, with the validity and the bucket it had. -/
theorem set_slots_valid {j : Nat} (hv : s.valid = (t.slots i).valid) :
    ((t.set i s).slots j).valid = (t.slots j).valid := by
  by_cases hj : j = i
  · rw [hj, set_slots_self, hv]
  · rw [set_slots_of_ne hj]

/-- The same of its key. -/
theorem set_slots_key {j : Nat} (hk : s.key = (t.slots i).key) :
    ((t.set i s).slots j).key = (t.slots j).key := by
  by_cases hj : j = i
  · rw [hj, set_slots_self, hk]
  · rw [set_slots_of_ne hj]

/-- Touching a slot changes the LRU list only. -/
theorem touch_slots (t : Tiered κ υ) (i : Nat) : (t.touch i).slots = t.slots := by
  rw [touch]
  split <;> rfl

/-- The chains stay as well. -/
theorem touch_buckets (t : Tiered κ υ) (i : Nat) : (t.touch i).buckets = t.buckets := by
  rw [touch]
  split <;> rfl

/-! ## Free slots

The source looks for the first slot that is not valid.  Slot numbers beyond `2 ^ 15` do not come out
of that search, since they go through an `int16_t`. -/

/-- A free slot. -/
structure Free (ty : Typed κ υ) (t : Tiered κ υ) (i : Nat) : Prop where
  /-- The slot is not in use. -/
  valid : (t.slots i).valid = false
  /-- It is within the cache and within `int16_t`. -/
  lt : i < ty.cacheSize.toNat ∧ i < 2 ^ 15

/-- What the search finds is free. -/
theorem free_of_freeSlot (hf : freeSlot ty t = some i) : Free ty t i := by
  rw [freeSlot] at hf
  obtain ⟨j, hj, hi⟩ := Option.bind_eq_some_iff.1 hf
  have hmem := List.mem_of_find?_eq_some hj
  have hv := List.find?_some hj
  rw [asInt16] at hi
  split at hi
  · next hlt =>
    obtain rfl := Option.some.inj hi
    exact ⟨by simpa using hv, List.mem_range.1 hmem, hlt⟩
  · cases hi

/-- Without a free slot all slots are in use. -/
theorem valid_of_freeSlot_none (hf : freeSlot ty t = none) (hi : i < ty.cacheSize.toNat)
    (hlt : i < 2 ^ 15) : (t.slots i).valid = true := by
  by_contra hv
  have hv : (!(t.slots i).valid) = true := by rw [Bool.eq_false_iff.2 hv, Bool.not_false]
  rw [freeSlot] at hf
  cases hj : (List.range ty.cacheSize.toNat).find? fun i => !(t.slots i).valid with
  | none => exact List.find?_eq_none.1 hj i (List.mem_range.2 hi) hv
  | some j =>
    obtain ⟨-, -, hfirst⟩ := List.find?_range_eq_some.1 hj
    rw [hj, Option.bind_some, asInt16] at hf
    split at hf
    · cases hf
    · next hge =>
      have hbelow := hfirst i (by omega)
      rw [hv] at hbelow
      cases hbelow

/-! ## The map

A key is in the map if a valid slot has it. -/

variable [DecidableEq κ] [Inhabited κ] [Inhabited υ]

/-- The threads go through the valid slots, of which no two have the same key. -/
structure Wf (ty : Typed κ υ) (t : Tiered κ υ) : Prop where
  /-- No slot is on the LRU list twice. -/
  lruNodup : t.lru.Nodup
  /-- The list goes through the valid slots. -/
  memLru : ∀ i, i ∈ t.lru ↔ (t.slots i).valid = true
  /-- No slot is on a chain twice. -/
  chainNodup : ∀ b, (t.buckets b).Nodup
  /-- A chain goes through the valid slots of its bucket. -/
  memChain : ∀ b i, i ∈ t.buckets b ↔ (t.slots i).valid = true ∧ bucket ty (t.slots i).key = b
  /-- No two valid slots have the same key. -/
  inj : ∀ i j, (t.slots i).valid = true → (t.slots j).valid = true →
    (t.slots i).key = (t.slots j).key → i = j
  /-- Slot numbers are within the cache and within `int16_t`. -/
  lt : ∀ i, (t.slots i).valid = true → i < ty.cacheSize.toNat ∧ i < 2 ^ 15
  /-- A slot that is not valid is as it was at first. -/
  free : ∀ i, (t.slots i).valid = false → t.slots i = default

omit [DecidableEq κ] in
/-- No slot is valid at first. -/
theorem wf_new : Wf ty (new : Tiered κ υ) where
  lruNodup := List.nodup_nil
  memLru _ := iff_of_false List.not_mem_nil Bool.false_ne_true
  chainNodup _ := List.nodup_nil
  memChain _ _ := iff_of_false List.not_mem_nil fun h => Bool.false_ne_true h.1
  inj _ _ h := absurd h Bool.false_ne_true
  lt _ h := absurd h Bool.false_ne_true
  free _ _ := rfl

/-- `find_l1_` finds the slot of the key. -/
theorem Wf.find_eq_some (h : Wf ty t) {k : κ} :
    find ty t k = some i ↔ (t.slots i).valid = true ∧ (t.slots i).key = k := by
  have hpred (j : Nat) : ((t.slots j).valid && decide ((t.slots j).key = k)) = true ↔
      (t.slots j).valid = true ∧ (t.slots j).key = k := by
    rw [Bool.and_eq_true, decide_eq_true_eq]
  have hint (j : Nat) (hj : (t.slots j).valid = true) : asInt16 j = some j := if_pos (h.lt j hj).2
  rw [find]
  constructor
  · intro hf
    obtain ⟨j, hj, hi⟩ := Option.bind_eq_some_iff.1 hf
    have hp := List.find?_some hj
    have hv := (hpred j).1 hp
    rw [hint j hv.1, Option.some.injEq] at hi
    exact hi ▸ hv
  · intro hi
    have hmem : i ∈ t.buckets (bucket ty k) := (h.memChain _ i).2 ⟨hi.1, by rw [hi.2]⟩
    cases hf : (t.buckets (bucket ty k)).find? fun i =>
        (t.slots i).valid && decide ((t.slots i).key = k) with
    | none => exact absurd ((hpred i).2 hi) (List.find?_eq_none.1 hf i hmem)
    | some j =>
      have hp := List.find?_some hf
      have hv := (hpred j).1 hp
      rw [Option.bind_some, hint j hv.1, h.inj j i hv.1 hi.1 (hv.2.trans hi.2.symm)]

/-- A lookup finds nothing exactly if no valid slot has the key. -/
theorem Wf.find_eq_none (h : Wf ty t) {k : κ} :
    find ty t k = none ↔ ∀ i, (t.slots i).valid = true → (t.slots i).key ≠ k := by
  rw [Option.eq_none_iff_forall_ne_some]
  refine forall_congr' fun i => ?_
  rw [ne_eq, h.find_eq_some, not_and]

/-- The slots as a map. -/
def cell (ty : Typed κ υ) (t : Tiered κ υ) (k : κ) : Option (Slot κ υ) := (find ty t k).map t.slots

/-- The map at a key is the valid slot with that key. -/
theorem Wf.cell_eq_some (h : Wf ty t) {k : κ} : cell ty t k = some s ↔
    ∃ i, (t.slots i).valid = true ∧ (t.slots i).key = k ∧ t.slots i = s := by
  rw [cell, Option.map_eq_some_iff]
  refine exists_congr fun i => ?_
  rw [h.find_eq_some, and_assoc]

/-- A valid slot is the map at its key. -/
theorem Wf.cell_of_valid (h : Wf ty t) (hi : (t.slots i).valid = true) :
    cell ty t (t.slots i).key = some (t.slots i) :=
  h.cell_eq_some.2 ⟨i, hi, rfl, rfl⟩

omit [Inhabited κ] [Inhabited υ] in
/-- The slot a lookup finds is the map at the key. -/
theorem cell_of_find {k : κ} (hf : find ty t k = some i) : cell ty t k = some (t.slots i) :=
  congrArg (Option.map t.slots) hf

omit [Inhabited κ] [Inhabited υ] in
/-- The map has nothing at a key exactly if a lookup finds nothing. -/
theorem cell_eq_none {k : κ} : cell ty t k = none ↔ find ty t k = none := Option.map_eq_none_iff

/-- Two ways to say what the map is after a change of one slot. -/
theorem Wf.cell_eq_update {t' : Tiered κ υ} (h : Wf ty t) (h' : Wf ty t') {k : κ}
    {o : Option (Slot κ υ)}
    (hself : ∀ s, o = some s → (t'.slots i).valid = true ∧ (t'.slots i).key = k ∧ t'.slots i = s)
    (hother : ∀ j, j ≠ i → t'.slots j = t.slots j)
    (hold : ∀ j, (t.slots j).valid = true → (t.slots j).key = k → j = i)
    (hnew : (t'.slots i).valid = true → (t'.slots i).key = k ∧ o = some (t'.slots i))
    (hgone : (t.slots i).valid = true → (t.slots i).key = k) :
    cell ty t' = Function.update (cell ty t) k o := by
  funext k'
  refine Option.ext fun s => ?_
  rw [h'.cell_eq_some]
  by_cases hk : k' = k
  · subst hk
    rw [Function.update_self]
    constructor
    · rintro ⟨j, hv, hkey, rfl⟩
      by_cases hj : j = i
      · subst hj
        exact (hnew hv).2
      · rw [hother j hj] at hv hkey
        exact absurd (hold j hv hkey) hj
    · exact fun ho => ⟨i, hself s ho⟩
  · rw [Function.update_of_ne hk, h.cell_eq_some]
    constructor
    · rintro ⟨j, hv, hkey, rfl⟩
      have hj : j ≠ i := by
        rintro rfl
        exact hk (hkey.symm.trans (hnew hv).1)
      rw [hother j hj] at hv hkey ⊢
      exact ⟨j, hv, hkey, rfl⟩
    · rintro ⟨j, hv, hkey, rfl⟩
      have hj : j ≠ i := by
        rintro rfl
        exact hk (hkey.symm.trans (hgone hv))
      rw [← hother j hj] at hv hkey ⊢
      exact ⟨j, hv, hkey, rfl⟩

/-! ## Changes of one slot

Each of them changes the map at one key, or nowhere. -/

omit [DecidableEq κ] in
/-- Setting the other members of a valid slot. -/
theorem Wf.set (h : Wf ty t) (hi : (t.slots i).valid = true) (hv : s.valid = true)
    (hk : s.key = (t.slots i).key) : Wf ty (t.set i s) := by
  have hvalid (j : Nat) : ((t.set i s).slots j).valid = (t.slots j).valid :=
    set_slots_valid (hv.trans hi.symm)
  have hkey (j : Nat) : ((t.set i s).slots j).key = (t.slots j).key := set_slots_key hk
  refine ⟨h.lruNodup, fun j => ?_, h.chainNodup, fun b j => ?_, fun j j' hj hj' he => ?_, fun j hj => ?_,
    fun j hj => ?_⟩
  · rw [hvalid]
    exact h.memLru j
  · rw [hvalid, hkey]
    exact h.memChain b j
  · rw [hvalid] at hj hj'
    rw [hkey, hkey] at he
    exact h.inj j j' hj hj' he
  · rw [hvalid] at hj
    exact h.lt j hj
  · have hne : j ≠ i := by
      rintro rfl
      rw [hvalid, hi] at hj
      cases hj
    rw [hvalid] at hj
    rw [set_slots_of_ne hne]
    exact h.free j hj

/-- The map has the new members at the key of the slot. -/
theorem Wf.cell_set (h : Wf ty t) (hi : (t.slots i).valid = true) (hv : s.valid = true)
    (hk : s.key = (t.slots i).key) :
    cell ty (t.set i s) = Function.update (cell ty t) (t.slots i).key (some s) := by
  refine h.cell_eq_update (h.set hi hv hk) (fun s' hs' => ?_) (fun j => set_slots_of_ne)
    (fun j hj hkey => h.inj j i hj hi hkey) (fun _ => ?_) fun _ => rfl
  · rw [set_slots_self, ← Option.some.inj hs']
    exact ⟨hv, hk, rfl⟩
  · rw [set_slots_self]
    exact ⟨hk, rfl⟩

omit [DecidableEq κ] in
/-- Touching a slot keeps the invariant. -/
theorem Wf.touch (h : Wf ty t) (hi : (t.slots i).valid = true) : Wf ty (t.touch i) := by
  have hmem (j : Nat) : j ∈ i :: t.lru.erase i ↔ j ∈ t.lru := by
    rw [List.mem_cons, h.lruNodup.mem_erase_iff]
    by_cases hj : j = i
    · rw [hj]
      exact iff_of_true (.inl rfl) ((h.memLru i).2 hi)
    · simp [hj]
  have hlru : (t.touch i).lru.Nodup ∧ ∀ j, j ∈ (t.touch i).lru ↔ j ∈ t.lru := by
    rw [Tiered.touch]
    split
    · exact ⟨h.lruNodup, fun _ => Iff.rfl⟩
    · refine ⟨List.nodup_cons.2 ⟨fun hin => ?_, h.lruNodup.erase i⟩, hmem⟩
      exact (h.lruNodup.mem_erase_iff.1 hin).1 rfl
  refine ⟨hlru.1, fun j => ?_, fun b => ?_, fun b j => ?_, ?_, ?_, ?_⟩
  · rw [hlru.2, touch_slots]
    exact h.memLru j
  · rw [touch_buckets]
    exact h.chainNodup b
  · rw [touch_buckets, touch_slots]
    exact h.memChain b j
  · rw [touch_slots]
    exact h.inj
  · rw [touch_slots]
    exact h.lt
  · rw [touch_slots]
    exact h.free

omit [Inhabited κ] [Inhabited υ] in
/-- The map is as before. -/
theorem cell_touch : cell ty (t.touch i) = cell ty t := by
  funext k
  rw [cell, cell, find, find, touch_slots, touch_buckets]

omit [DecidableEq κ] in
/-- Removing a valid slot. -/
theorem removeSlot_eq (hi : (t.slots i).valid = true) :
    removeSlot ty t i = ((unlinkHash ty t i).unlinkLru i).set i default := by
  rw [removeSlot, hi]
  rfl

omit [DecidableEq κ] in
/-- Removing a slot keeps the invariant. -/
theorem Wf.removeSlot (h : Wf ty t) (hi : (t.slots i).valid = true) : Wf ty (removeSlot ty t i) := by
  rw [removeSlot_eq hi]
  have hslots (j : Nat) : (((unlinkHash ty t i).unlinkLru i).set i default).slots j
      = if j = i then default else t.slots j := by
    split
    · next hj => rw [hj, set_slots_self]
    · next hj => exact set_slots_of_ne hj
  have hvalid (j : Nat) : (((((unlinkHash ty t i).unlinkLru i).set i default).slots j).valid = true) ↔
      j ≠ i ∧ (t.slots j).valid = true := by
    rw [hslots]
    split
    · next hj => exact iff_of_false Bool.false_ne_true fun h => h.1 hj
    · next hj => exact (and_iff_right hj).symm
  have hbucket (b : Nat) : (((unlinkHash ty t i).unlinkLru i).set i default).buckets b
      = if b = bucket ty (t.slots i).key then (t.buckets b).erase i else t.buckets b := by
    change Function.update t.buckets _ _ b = _
    split
    · next hb => rw [hb, Function.update_self]
    · next hb => exact Function.update_of_ne hb ..
  refine ⟨h.lruNodup.erase i, fun j => ?_, fun b => ?_, fun b j => ?_, fun j j' hj hj' he => ?_,
    fun j hj => h.lt j ((hvalid j).1 hj).2, fun j hj => ?_⟩
  · rw [hvalid, ← h.memLru]
    exact h.lruNodup.mem_erase_iff
  · rw [hbucket]
    split
    · exact (h.chainNodup b).erase i
    · exact h.chainNodup b
  · rw [hvalid, hbucket]
    have hmem := h.memChain b j
    split
    · rw [(h.chainNodup b).mem_erase_iff, hmem, and_assoc]
      refine and_congr_right fun hj => ?_
      rw [hslots, if_neg hj]
    · next hb =>
      rw [hmem]
      by_cases hj : j = i
      · rw [hj]
        exact iff_of_false (fun h => hb h.2.symm) fun h => h.1.1 rfl
      · rw [hslots, if_neg hj, and_iff_right hj]
  · have hj := (hvalid j).1 hj
    have hj' := (hvalid j').1 hj'
    rw [hslots, hslots, if_neg hj.1, if_neg hj'.1] at he
    exact h.inj j j' hj.2 hj'.2 he
  · rw [hslots] at hj ⊢
    split
    · rfl
    · next hne =>
      rw [if_neg hne] at hj
      exact h.free j hj

/-- The map has nothing at its key any more. -/
theorem Wf.cell_removeSlot (h : Wf ty t) (hi : (t.slots i).valid = true) :
    cell ty (Tiered.removeSlot ty t i) = Function.update (cell ty t) (t.slots i).key none := by
  refine h.cell_eq_update (i := i) (h.removeSlot hi) nofun (fun j hj => ?_)
    (fun j hj hkey => h.inj j i hj hi hkey) (fun hv => ?_) fun _ => rfl
  · rw [removeSlot_eq hi]
    exact set_slots_of_ne hj
  · rw [removeSlot_eq hi, set_slots_self] at hv
    cases hv

omit [DecidableEq κ] in
/-- The slot is as it was at first. -/
theorem Wf.removeSlot_free (hi : (t.slots i).valid = true) :
    (Tiered.removeSlot ty t i).slots i = default := by
  rw [removeSlot_eq hi]
  exact set_slots_self ..

/-- Linking a free slot with a new key. -/
theorem Wf.link (h : Wf ty t) (hi : (t.slots i).valid = false)
    (hlt : i < ty.cacheSize.toNat ∧ i < 2 ^ 15) (hv : s.valid = true) (hk : cell ty t s.key = none) :
    Wf ty ((linkHash ty (t.set i s) i).linkLruFront i) := by
  have hno := (h.find_eq_none).1 (cell_eq_none.1 hk)
  have hslots (j : Nat) : ((linkHash ty (t.set i s) i).linkLruFront i).slots j
      = if j = i then s else t.slots j := by
    split
    · next hj => rw [hj]; exact set_slots_self ..
    · next hj => exact set_slots_of_ne hj
  have hvalid (j : Nat) : (((linkHash ty (t.set i s) i).linkLruFront i).slots j).valid = true ↔
      j = i ∨ (t.slots j).valid = true := by
    rw [hslots]
    split
    · next hj => exact iff_of_true hv (.inl hj)
    · next hj => exact (or_iff_right hj).symm
  have hbucket (b : Nat) : ((linkHash ty (t.set i s) i).linkLruFront i).buckets b
      = if b = bucket ty s.key then i :: t.buckets b else t.buckets b := by
    change Function.update t.buckets (bucket ty ((t.set i s).slots i).key) _ b = _
    rw [set_slots_self]
    split
    · next hb => rw [hb, Function.update_self]; rfl
    · next hb => exact Function.update_of_ne hb ..
  have hfree (b : Nat) : i ∉ t.buckets b := fun hmem => by
    have := ((h.memChain b i).1 hmem).1
    rw [hi] at this
    cases this
  refine ⟨List.nodup_cons.2 ⟨fun hmem => ?_, h.lruNodup⟩, fun j => ?_, fun b => ?_, fun b j => ?_,
    fun j j' hj hj' he => ?_, fun j hj => ?_, fun j hj => ?_⟩
  · have := (h.memLru i).1 hmem
    rw [hi] at this
    cases this
  · rw [hvalid, ← h.memLru]
    exact List.mem_cons
  · rw [hbucket]
    split
    · exact List.nodup_cons.2 ⟨hfree b, h.chainNodup b⟩
    · exact h.chainNodup b
  · rw [hvalid, hbucket, hslots]
    by_cases hj : j = i
    · rw [hj, if_pos rfl, and_iff_right (.inl rfl)]
      split
      · next hb => exact iff_of_true List.mem_cons_self hb.symm
      · next hb => exact iff_of_false (hfree b) fun he => hb he.symm
    · rw [if_neg hj, or_iff_right hj, ← h.memChain b j]
      split
      · rw [List.mem_cons, or_iff_right hj]
      · exact Iff.rfl
  · have hne (l : Nat) (hl : (t.slots l).valid = true) : l ≠ i := by
      rintro rfl
      rw [hi] at hl
      cases hl
    rw [hslots, hslots] at he
    rcases (hvalid j).1 hj with hji | hold
    · rcases (hvalid j').1 hj' with hji' | hold'
      · exact hji.trans hji'.symm
      · rw [if_pos hji, if_neg (hne j' hold')] at he
        exact absurd he.symm (hno j' hold')
    · rcases (hvalid j').1 hj' with hji' | hold'
      · rw [if_neg (hne j hold), if_pos hji'] at he
        exact absurd he (hno j hold)
      · rw [if_neg (hne j hold), if_neg (hne j' hold')] at he
        exact h.inj j j' hold hold' he
  · rcases (hvalid j).1 hj with rfl | hj
    · exact hlt
    · exact h.lt j hj
  · rw [hslots] at hj ⊢
    split
    · next hne =>
      rw [if_pos hne, hv] at hj
      cases hj
    · next hne =>
      rw [if_neg hne] at hj
      exact h.free j hj

/-- A new slot is in the map at its key. -/
theorem Wf.cell_link (h : Wf ty t) (hi : (t.slots i).valid = false)
    (hlt : i < ty.cacheSize.toNat ∧ i < 2 ^ 15) (hv : s.valid = true) (hk : cell ty t s.key = none) :
    cell ty ((linkHash ty (t.set i s) i).linkLruFront i)
      = Function.update (cell ty t) s.key (some s) := by
  have hself : ((linkHash ty (t.set i s) i).linkLruFront i).slots i = s := set_slots_self ..
  refine h.cell_eq_update (h.link hi hlt hv hk) (fun s' hs' => ?_) (fun j => set_slots_of_ne)
    (fun j hj hkey => absurd hkey ((h.find_eq_none).1 (cell_eq_none.1 hk) j hj)) (fun _ => ?_)
    fun hv' => ?_
  · rw [hself, ← Option.some.inj hs']
    exact ⟨hv, rfl, rfl⟩
  · rw [hself]
    exact ⟨rfl, rfl⟩
  · rw [hi] at hv'
    cases hv'

omit [DecidableEq κ] in
/-- Without a free slot there is one on the LRU list. -/
theorem Wf.lru_ne_nil (h : Wf ty t) (hpos : 0 < ty.cacheSize.toNat) (hf : freeSlot ty t = none) :
    t.lru ≠ [] := by
  intro hnil
  have hv : (t.slots 0).valid = false := by
    rw [← Bool.not_eq_true, ← h.memLru, hnil]
    exact List.not_mem_nil
  obtain ⟨n, hn⟩ := Nat.exists_eq_succ_of_ne_zero (Nat.pos_iff_ne_zero.1 hpos)
  rw [freeSlot, hn, List.range_succ_eq_map, List.find?_cons_of_pos (by rw [hv]; rfl)] at hf
  cases hf

end Tiered

end MicroStore
