import Mathlib.Tactic.Linarith
import MicroStore.Library.Selection
import MicroStore.Log

/-!
# Which records are evicted

When there are more entries than `max_recs`, `prune_index_to_max_recs_` evicts those that
`evicts_before` puts first.  That comparison is the eviction policy of the store, and here it is taken
apart.

## The comparison

`evicts_before` compares timestamps less penalties without computing either: it adds each penalty to the
other side, in 64 bits.  `evictsBefore_iff` says that this is the comparison of the exact differences, the
scores.  The penalty itself is computed in 32 bits, and it is rounded down before it is multiplied by the
priority, so a larger priority may make it smaller.

* `rank_monotone_iff` — exactly when a larger priority does not make a record stay longer.
* `rank_inverted` — how it can.
* `evictsBefore_of_mild` — a range of TTLs and priorities in which it does not.

## Eviction

The source has two ways of evicting: one scan for the least entry if one has to go, a partial sort of
all entries if several have to.  `prune_selects` is the statement that either drops entries of least
score and keeps the others, `prune_capped` that no more than `max_recs` stay, and `prune_keeps_greatest`
says both of the index.  `evictSingly` is the simpler program that evicts one entry at a time;
`evictSingly_scores` compares the two.
-/

set_option autoImplicit false

namespace MicroStore

/-! ## Scores -/

/-- What eviction ranks an entry by: the timestamp less the penalty. -/
def Store.score (st : Store) (it : IndexItem) : Int :=
  (it.2.timestamp.toNat : Int) - (ttlPenalty it.2.priority (st.effectiveTtl it.2)).toNat

/-- The scores of all entries. -/
def Store.scores (st : Store) : Multiset Int :=
  Multiset.map st.score (st.index.entries : Multiset IndexItem)

/-- **The comparison is one of scores**, computed without wrapping. -/
theorem evictsBefore_iff {p q : UInt8} {ts ts' ttl ttl' : UInt32} :
    evictsBefore p ts ttl q ts' ttl' = true ↔
      (ts.toNat : Int) - (ttlPenalty p ttl).toNat < (ts'.toNat : Int) - (ttlPenalty q ttl').toNat := by
  rw [evictsBefore, decide_eq_true_eq]
  omega

/-- The same for entries of the index. -/
theorem Store.itemEvictsBefore_iff {st : Store} (a b : IndexItem) :
    st.itemEvictsBefore a b = true ↔ st.score a < st.score b :=
  evictsBefore_iff

/-- The penalty as the source computes it, in 32 bits. -/
theorem toNat_ttlPenalty (p : UInt8) (ttl : UInt32) :
    (ttlPenalty p ttl).toNat = ttl.toNat / (p.toNat + 3) * p.toNat * 10 % 2 ^ 32 := by
  have hp : p.toNat < 2 ^ 8 := p.toNat_lt
  have hadd : (p.toNat + 3) % 2 ^ 32 = p.toNat + 3 := Nat.mod_eq_of_lt (by omega)
  rw [ttlPenalty, UInt32.toNat_mul, UInt32.toNat_mul, UInt32.toNat_div, UInt32.toNat_add,
    UInt8.toNat_toUInt32]
  change ttl.toNat / ((p.toNat + 3) % 2 ^ 32) * p.toNat % 2 ^ 32 * 10 % 2 ^ 32 = _
  rw [hadd, Nat.mod_mul_mod]

/-- **A larger priority is not safer** exactly where its penalty, rounded and in 32 bits, is not
smaller. -/
theorem rank_monotone_iff (ts ttl : UInt32) (p q : UInt8) :
    evictsBefore p ts ttl q ts ttl = false ↔
      ttl.toNat / (p.toNat + 3) * p.toNat * 10 % 2 ^ 32
        ≤ ttl.toNat / (q.toNat + 3) * q.toNat * 10 % 2 ^ 32 := by
  rw [← Bool.not_eq_true, evictsBefore, decide_eq_true_eq, ← toNat_ttlPenalty, ← toNat_ttlPenalty]
  omega

/-- Four seconds are rounded to no penalty at priority 2, but not at priority 1. -/
theorem rank_inverted : ¬∀ (ts ttl : UInt32) (p q : UInt8), p < q →
    evictsBefore p ts ttl q ts ttl = false :=
  fun h => absurd (h 0 4 1 2 (by decide)) (by decide)

/-- Priority 0 is always the safest. -/
theorem evictsBefore_zero (ts ttl : UInt32) (q : UInt8) : evictsBefore 0 ts ttl q ts ttl = false := by
  rw [rank_monotone_iff]
  exact Nat.zero_le _

/-- A TTL that is neither too long nor too short is ranked right. -/
theorem evictsBefore_of_mild {ts ttl : UInt32} {p q : UInt8} (hpq : p < q)
    (hshort : q.toNat * (q.toNat + 2) * (p.toNat + 3) ≤ 3 * ttl.toNat * (q.toNat - p.toNat))
    (hlong : ttl.toNat * 10 < 2 ^ 32) : evictsBefore p ts ttl q ts ttl = false := by
  have hlt : p.toNat < q.toNat := hpq
  obtain ⟨d, hd⟩ := Nat.exists_eq_add_of_lt hlt
  -- neither penalty exceeds ten times the TTL
  have hfit (n : Nat) : ttl.toNat / (n + 3) * n * 10 < 2 ^ 32 := by
    have hle : ttl.toNat / (n + 3) * n ≤ ttl.toNat :=
      (Nat.mul_le_mul_left _ (Nat.le_add_right n 3)).trans (Nat.div_mul_le_self _ _)
    omega
  rw [rank_monotone_iff, Nat.mod_eq_of_lt (hfit _), Nat.mod_eq_of_lt (hfit _)]
  refine Nat.mul_le_mul_right 10 ?_
  have hp : ttl.toNat / (p.toNat + 3) * (p.toNat + 3) ≤ ttl.toNat := Nat.div_mul_le_self _ _
  have hq : ttl.toNat < (ttl.toNat / (q.toNat + 3) + 1) * (q.toNat + 3) :=
    Nat.lt_mul_of_div_lt (Nat.lt_succ_self _) (by omega)
  have hdiff : q.toNat - p.toNat = d + 1 := by omega
  rw [hdiff, hd] at hshort
  rw [hd] at hq ⊢
  generalize ttl.toNat / (p.toNat + 3) = a at hp ⊢
  generalize ttl.toNat / (p.toNat + d + 1 + 3) = b at hq ⊢
  have hpos : 0 < (p.toNat + 3) * (p.toNat + d + 1 + 3) := Nat.mul_pos (by omega) (by omega)
  refine Nat.le_of_mul_le_mul_right ?_ hpos
  nlinarith [Nat.mul_le_mul_right (p.toNat * (p.toNat + d + 1 + 3)) hp,
    Nat.mul_le_mul_right ((p.toNat + d + 1) * (p.toNat + 3)) (Nat.succ_le_of_lt hq)]

/-! ## Eviction

The index is a list of entries; that nothing is lost or gained but what is evicted is said with
multisets, since the order of iteration is not specified. -/

section alist

variable {α : Type} {β : α → Type} [DecidableEq α]

theorem length_keys_erase {s : AList β} {a : α} (h : a ∈ s.keys) :
    (s.erase a).keys.length + 1 = s.keys.length := by
  have hpos := List.length_pos_of_mem h
  rw [AList.keys_erase, List.length_erase_of_mem h]
  omega

theorem length_keys_insert_le (s : AList β) (a : α) (b : β a) :
    (s.insert a b).keys.length ≤ s.keys.length + 1 := by
  rw [AList.keys_insert, List.length_cons]
  exact Nat.succ_le_succ List.erase_sublist.length_le

/-- Erasing an entry. -/
theorem entries_erase_perm {s : AList β} {it : Sigma β} (h : it ∈ s.entries) :
    s.entries.Perm (it :: (s.erase it.1).entries) := by
  obtain ⟨b, l₁, l₂, -, hl, hk⟩ := List.exists_of_kerase (List.mem_keys_of_mem h)
  have he : it = ⟨it.1, b⟩ := by
    refine s.nodupKeys.eq_of_fst_eq h ?_ rfl
    rw [hl]
    exact List.mem_append_right _ List.mem_cons_self
  change s.entries.Perm (it :: List.kerase it.1 s.entries)
  rw [hk, hl, ← he]
  exact List.perm_middle

/-- Erasing entries one after the other. -/
theorem entries_foldl_erase {items rest : List (Sigma β)} {s : AList β}
    (h : s.entries.Perm (items ++ rest)) :
    (items.foldl (fun s it => s.erase it.1) s).entries.Perm rest := by
  induction items generalizing s with
  | nil => exact h
  | cons it items ih =>
    refine ih ((List.perm_cons it).1 ?_)
    exact (entries_erase_perm (h.mem_iff.2 List.mem_cons_self)).symm.trans h

end alist

/-- Within the limit nothing happens. -/
theorem pruneIndexToMaxRecs_eq {st : Store}
    (h : st.policyMaxRecs = 0 ∨ st.indexSize ≤ st.policyMaxRecs.toNat) :
    st.pruneIndexToMaxRecs = (0, st) := by
  rw [Store.pruneIndexToMaxRecs]
  exact if_pos (h.imp_left fun h => by rw [h]; rfl)

/-- `put` looks whether there are too many entries before it evicts, as the eviction itself does. -/
theorem prune_if_exceeds (st : Store) :
    (if st.policyMaxRecs.toNat > 0 ∧ st.indexSize > st.policyMaxRecs.toNat then
      st.pruneIndexToMaxRecs.2 else st) = st.pruneIndexToMaxRecs.2 := by
  split
  · rfl
  · next h =>
    rw [pruneIndexToMaxRecs_eq]
    by_cases hmax : st.policyMaxRecs.toNat = 0
    · exact .inl (UInt32.toNat_inj.1 hmax)
    · exact .inr (by omega)

/-- What is evicted depends on the index and the policies. -/
theorem prune_congr {st st' : Store} (hindex : st'.index = st.index) (horder : st'.order = st.order)
    (httl : st'.policyTtlSecs = st.policyTtlSecs) (hmax : st'.policyMaxRecs = st.policyMaxRecs) :
    st'.pruneIndexToMaxRecs.2.index = st.pruneIndexToMaxRecs.2.index := by
  have hitems : st'.items = st.items := by rw [Store.items, Store.items, hindex, horder]
  have hsize : st'.indexSize = st.indexSize := by rw [Store.indexSize, Store.indexSize, hindex]
  have hless : st'.itemEvictsBefore = st.itemEvictsBefore := by
    funext a b
    rw [Store.itemEvictsBefore, Store.itemEvictsBefore]
    simp only [Store.effectiveTtl, httl]
  rw [Store.pruneIndexToMaxRecs, Store.pruneIndexToMaxRecs, hitems, hsize, hless, hmax]
  dsimp only
  split
  · exact hindex
  · dsimp only
    rw [hindex]

/-- Evicting leaves a part of the index. -/
theorem foldl_erase_within {items : List IndexItem} {idx : Index} :
    (items.foldl (fun idx it => idx.erase it.1) idx).Within idx := by
  induction items generalizing idx with
  | nil => exact fun _ _ h => h
  | cons it items ih =>
    intro k v h
    have h := ih k v h
    by_cases hk : k = it.1
    · rw [hk, AList.lookup_erase] at h
      cases h
    · rwa [AList.lookup_erase_ne hk] at h

/-- Eviction takes entries out of the index, and counts them. -/
theorem prune_spec (st : Store) : ∃ n idx d, st.pruneIndexToMaxRecs
      = (n, { st with index := idx, deadSinceCompact := d }) ∧ idx.Within st.index ∧
    (n = 0 → idx = st.index) := by
  rw [Store.pruneIndexToMaxRecs]
  dsimp only
  split
  · exact ⟨0, st.index, st.deadSinceCompact, rfl, fun _ _ h => h, fun _ => rfl⟩
  · next h =>
    refine ⟨_, _, _, rfl, foldl_erase_within, fun hn => ?_⟩
    rw [not_or] at h
    omega

/-- The index holds no more entries than it may. -/
def Store.Capped (st : Store) : Prop :=
  st.policyMaxRecs = 0 ∨ st.indexSize ≤ st.policyMaxRecs.toNat

theorem Store.indexSize_eq (st : Store) : st.indexSize = st.index.entries.length := by
  rw [Store.indexSize, AList.keys, List.keys, List.length_map]

/-- The scan finds an entry of least score. -/
theorem Store.exists_least (st : Store) (first : IndexItem) (rest : List IndexItem) :
    ∃ x, rest.foldl (fun evict it => if st.itemEvictsBefore it evict then it else evict) first = x ∧
      x ∈ first :: rest ∧ ∀ y ∈ first :: rest, st.score x ≤ st.score y :=
  ⟨_, rfl, foldl_least_mem st.itemEvictsBefore first rest,
    foldl_least_le st.score st.itemEvictsBefore Store.itemEvictsBefore_iff first rest⟩

/-- **What eviction takes out of the index**: as many entries as are too many, of least score. -/
theorem prune_evicts {st : Store} (h : ¬st.Capped) : ∃ evicted rest : List IndexItem,
    st.index.entries.Perm (evicted ++ rest) ∧
      evicted.length = st.indexSize - st.policyMaxRecs.toNat ∧
      (∀ x ∈ evicted, ∀ y ∈ rest, st.score x ≤ st.score y) ∧
      st.pruneIndexToMaxRecs.2.index = evicted.foldl (fun idx it => idx.erase it.1) st.index := by
  rw [Store.Capped, not_or, Nat.not_le] at h
  have hperm := st.order.perm st.index.entries
  have hlen : st.items.length = st.indexSize := by
    rw [st.indexSize_eq]
    exact hperm.length_eq
  have hmax : ¬(st.policyMaxRecs.toNat = 0 ∨ st.indexSize ≤ st.policyMaxRecs.toNat) :=
    not_or.2 ⟨fun he => h.1 (UInt32.toNat_inj.1 he), Nat.not_le.2 h.2⟩
  rw [Store.pruneIndexToMaxRecs]
  dsimp only
  rw [if_neg hmax]
  dsimp only
  split
  · next hone =>
    cases hitems : st.items with
    | nil =>
      rw [hitems, List.length_nil] at hlen
      omega
    | cons first rest =>
      dsimp only
      obtain ⟨x, hx, hmem, hle⟩ := st.exists_least first rest
      rw [hx]
      refine ⟨[x], (first :: rest).erase x, ?_, hone.symm, fun y hy z hz => ?_, rfl⟩
      · refine hperm.symm.trans ?_
        change st.items.Perm _
        rw [hitems]
        exact List.perm_cons_erase hmem
      · rw [List.mem_singleton.1 hy]
        exact hle z (List.mem_of_mem_erase hz)
  · have hsort := List.perm_insertionSort (fun a b => !st.itemEvictsBefore b a) st.items
    refine ⟨_, _, ?_, ?_, take_insertionSort_le st.score st.itemEvictsBefore
      Store.itemEvictsBefore_iff st.items (st.indexSize - st.policyMaxRecs.toNat), rfl⟩
    · rw [List.take_append_drop]
      exact hperm.symm.trans hsort.symm
    · rw [List.length_take, hsort.length_eq, hlen]
      omega

/-- Eviction leaves the entries of greatest score, and no more than there may be. -/
theorem prune_selects (st : Store) : ∃ dropped : Multiset IndexItem,
    Selects st.score (st.index.entries : Multiset IndexItem)
      (st.pruneIndexToMaxRecs.2.index.entries : Multiset IndexItem) dropped ∧
    (¬st.Capped → st.pruneIndexToMaxRecs.2.indexSize = st.policyMaxRecs.toNat) := by
  by_cases hcap : st.Capped
  · rw [pruneIndexToMaxRecs_eq hcap]
    exact ⟨0, .refl _ _, fun h => absurd hcap h⟩
  obtain ⟨evicted, rest, hperm, hlen, hle, hindex⟩ := prune_evicts hcap
  have hrest := entries_foldl_erase hperm
  rw [Store.indexSize_eq, hindex, Multiset.coe_eq_coe.2 hrest]
  refine ⟨evicted, ⟨?_, hle⟩, fun _ => ?_⟩
  · rw [Multiset.coe_eq_coe.2 hperm, Multiset.coe_add, Multiset.coe_eq_coe]
    exact List.perm_append_comm
  · rw [Store.Capped, not_or, Nat.not_le] at hcap
    have hsize := hperm.length_eq
    rw [← st.indexSize_eq, List.length_append] at hsize
    rw [hrest.length_eq]
    omega

/-- Eviction leaves no more entries than there may be. -/
theorem prune_capped (st : Store) : st.pruneIndexToMaxRecs.2.Capped := by
  by_cases hcap : st.Capped
  · rw [pruneIndexToMaxRecs_eq hcap]
    exact hcap
  obtain ⟨-, -, hsize⟩ := prune_selects st
  obtain ⟨n, idx, d, hprune, -⟩ := prune_spec st
  refine .inr ?_
  rw [hsize hcap, hprune]

/-- The scan that evicts one entry. -/
def Store.evictOne (st : Store) : Store :=
  match st.items with
  | [] => st
  | first :: rest =>
    let evict := rest.foldl (fun evict it => if st.itemEvictsBefore it evict then it else evict) first
    { st with index := st.index.erase evict.1 }

/-- Evicting one entry at a time. -/
def Store.evictSingly : Nat → Store → Store
  | 0, st => st
  | k + 1, st => evictSingly k st.evictOne

/-- One eviction drops an entry of least score. -/
theorem evictOne_selects {st : Store} (h : 0 < st.indexSize) : ∃ dropped : Multiset IndexItem,
    Selects st.score (st.index.entries : Multiset IndexItem)
      (st.evictOne.index.entries : Multiset IndexItem) dropped ∧
    st.evictOne.indexSize + 1 = st.indexSize := by
  have hperm := st.order.perm st.index.entries
  rw [Store.evictOne]
  cases hitems : st.items with
  | nil =>
    have hlen := hperm.length_eq
    rw [← st.indexSize_eq] at hlen
    change st.items.length = _ at hlen
    rw [hitems, List.length_nil] at hlen
    omega
  | cons first rest =>
    dsimp only
    obtain ⟨x, hx, hmem, hle⟩ := st.exists_least first rest
    have hentries (y : IndexItem) : y ∈ first :: rest ↔ y ∈ st.index.entries := by
      rw [← hitems]
      exact hperm.mem_iff
    have herase := entries_erase_perm ((hentries x).1 hmem)
    rw [hx]
    refine ⟨{x}, ⟨?_, fun y hy z hz => ?_⟩, length_keys_erase (List.mem_keys_of_mem ((hentries x).1 hmem))⟩
    · rw [Multiset.coe_eq_coe.2 herase, Multiset.add_comm]
      rfl
    · rw [Multiset.mem_singleton.1 hy]
      exact hle z ((hentries z).2 (herase.mem_iff.2 (List.mem_cons_of_mem _ hz)))

/-- The score does not depend on the index. -/
theorem Store.score_congr {st st' : Store} (h : st'.policyTtlSecs = st.policyTtlSecs) :
    st'.score = st.score := by
  funext it
  rw [Store.score, Store.score, Store.effectiveTtl, Store.effectiveTtl, h]

theorem Store.evictOne_ttl (st : Store) : st.evictOne.policyTtlSecs = st.policyTtlSecs := by
  rw [Store.evictOne]
  cases st.items <;> rfl

/-- Several drop as many. -/
theorem evictSingly_selects {k : Nat} {st : Store} (h : k ≤ st.indexSize) :
    ∃ dropped : Multiset IndexItem, Selects st.score (st.index.entries : Multiset IndexItem)
      ((st.evictSingly k).index.entries : Multiset IndexItem) dropped ∧
    (st.evictSingly k).indexSize + k = st.indexSize ∧
    (st.evictSingly k).policyTtlSecs = st.policyTtlSecs := by
  induction k generalizing st with
  | zero => exact ⟨0, .refl _ _, rfl, rfl⟩
  | succ k ih =>
    obtain ⟨d₁, h₁, hsize₁⟩ := @evictOne_selects st (by omega)
    obtain ⟨d₂, h₂, hsize₂, httl⟩ := @ih st.evictOne (by omega)
    rw [Store.score_congr st.evictOne_ttl] at h₂
    rw [Store.evictSingly]
    exact ⟨d₂ + d₁, h₁.trans h₂, by omega, httl.trans st.evictOne_ttl⟩

/-- **Evicting at once and one at a time** leave the same scores. -/
theorem evictSingly_scores {st : Store} (hmax : st.policyMaxRecs ≠ 0) :
    (st.evictSingly (st.indexSize - st.policyMaxRecs.toNat)).scores
      = st.pruneIndexToMaxRecs.2.scores := by
  obtain ⟨n, idx, d, hprune, -⟩ := prune_spec st
  obtain ⟨d₁, h₁, hsize₁, httl₁⟩ := @evictSingly_selects
    (st.indexSize - st.policyMaxRecs.toNat) st (Nat.sub_le _ _)
  obtain ⟨d₂, h₂, hsize₂⟩ := prune_selects st
  rw [Store.scores, Store.scores, Store.score_congr httl₁,
    @Store.score_congr st st.pruneIndexToMaxRecs.2 (by rw [hprune])]
  refine h₁.unique h₂ ?_
  rw [Multiset.coe_card, Multiset.coe_card, ← Store.indexSize_eq, ← Store.indexSize_eq]
  by_cases hcap : st.Capped
  · have hle : st.indexSize ≤ st.policyMaxRecs.toNat := hcap.resolve_left hmax
    rw [pruneIndexToMaxRecs_eq hcap]
    dsimp only
    omega
  · have hgt := hcap
    rw [Store.Capped, not_or] at hgt
    rw [hsize₂ hcap]
    omega

/-- **What `prune_index_to_max_recs_` does**: entries beyond the maximum go, those that stay are as they
were, and none that goes has a greater score than one that stays. -/
theorem prune_keeps_greatest {st : Store} (hmax : st.policyMaxRecs ≠ 0) :
    let st' := st.pruneIndexToMaxRecs.2
    st'.indexSize = min st.indexSize st.policyMaxRecs.toNat ∧
      (∀ k v, st'.indexFind k = some v → st.indexFind k = some v) ∧
      ∀ k v k' v', st.indexFind k = some v → st'.indexFind k = none → st'.indexFind k' = some v' →
        st.score ⟨k, v⟩ ≤ st.score ⟨k', v'⟩ := by
  intro st'
  obtain ⟨n, idx, d, hprune, hwithin, -⟩ := prune_spec st
  obtain ⟨dropped, h, hsize⟩ := prune_selects st
  have hfind (k : Key) (v : IndexValue) (s : Store) :
      s.indexFind k = some v ↔ (⟨k, v⟩ : IndexItem) ∈ s.index.entries := AList.mem_lookup_iff
  refine ⟨?_, fun k v hv => ?_, fun k v k' v' hv hnone hv' => ?_⟩
  · by_cases hcap : st.Capped
    · have hle : st.indexSize ≤ st.policyMaxRecs.toNat := hcap.resolve_left hmax
      change st.pruneIndexToMaxRecs.2.indexSize = _
      rw [pruneIndexToMaxRecs_eq hcap, Nat.min_eq_left hle]
    · have hgt := hcap
      rw [Store.Capped, not_or] at hgt
      exact (hsize hcap).trans (Nat.min_eq_right (by omega)).symm
  · refine hwithin k v ?_
    have hv : st.pruneIndexToMaxRecs.2.index.lookup k = some v := hv
    rwa [hprune] at hv
  · refine h.le _ ?_ _ ((hfind k' v' st').1 hv')
    have hmem : (⟨k, v⟩ : IndexItem) ∈ (st.index.entries : Multiset IndexItem) := (hfind k v st).1 hv
    rw [h.eq, Multiset.mem_add] at hmem
    refine hmem.resolve_left fun hkept => ?_
    cases ((hfind k v st').2 hkept).symm.trans hnone

end MicroStore
