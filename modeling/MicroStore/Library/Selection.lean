import Mathlib.Data.List.Sort
import Mathlib.Data.Multiset.Count
import Mathlib.Data.Finset.Basic

/-!
# Dropping the least

`Selects f s kept dropped` says that `kept` is what is left of `s` when elements of least `f` are
dropped.  Which elements these are is not determined where `f` takes a value twice, but the values of
`f` that are left are: they depend on the number of elements only (`Selects.unique`).  So elements may
be dropped in one go or one after the other (`Selects.trans`).

* `Selects` — the relation: the two parts make up the whole, and no value on the one side exceeds a value
  on the other.
* `Selects.refl`, `Selects.trans` — nothing is dropped, and more is dropped.
* `Selects.unique` — what is determined.
* `foldl_least_mem`, `foldl_least_le`, `take_insertionSort_le` — the two ways in which programs find the
  least: a scan for one element, and the front of a sorted list for several.  `nth_element` leaves its range
  in an unspecified order with the same front, so what is said of the sorted list holds of it as well.

Multisets are used because only the number of equal values matters, not where they stand.
-/

set_option autoImplicit false

/-- What is left of `s` when elements of least `f` are dropped. -/
structure Selects {α ι : Type} [LinearOrder ι] (f : α → ι) (s kept dropped : Multiset α) : Prop where
  /-- Nothing is lost and nothing comes in. -/
  eq : s = kept + dropped
  /-- Whatever is dropped ranks no higher than whatever is kept. -/
  le : ∀ x ∈ dropped, ∀ y ∈ kept, f x ≤ f y

namespace Selects

variable {α ι : Type} [LinearOrder ι] {f : α → ι} {s kept dropped kept' dropped' : Multiset α}

/-- Nothing is dropped. -/
theorem refl (f : α → ι) (s : Multiset α) : Selects f s s 0 where
  eq := (Multiset.add_zero s).symm
  le _ hx := absurd hx (Multiset.notMem_zero _)

/-- What is left may be selected from again. -/
theorem trans (h : Selects f s kept dropped) (h' : Selects f kept kept' dropped') :
    Selects f s kept' (dropped' + dropped) where
  eq := by rw [← Multiset.add_assoc, ← h'.eq, h.eq]
  le x hx y hy := by
    rcases Multiset.mem_add.1 hx with hx | hx
    · exact h'.le x hx y hy
    · exact h.le x hx y (h'.eq ▸ Multiset.mem_add.2 (.inl hy))

/-- Two ways to split a multiset of values at a size keep the same values. -/
theorem values_unique {a b a' b' : Multiset ι} (heq : a + b = a' + b')
    (hle : ∀ x ∈ b, ∀ y ∈ a, x ≤ y) (hle' : ∀ x ∈ b', ∀ y ∈ a', x ≤ y)
    (hcard : Multiset.card a = Multiset.card a') : a = a' := by
  have hcount (z : ι) : a.count z + b.count z = a'.count z + b'.count z := by
    rw [← Multiset.count_add, heq, Multiset.count_add]
  -- a value that one side keeps more often is dropped by the other side
  have hsub {a b a' b' : Multiset ι} (hcount : ∀ z, a.count z + b.count z = a'.count z + b'.count z)
      (hcard : Multiset.card a = Multiset.card a') (hne : a ≠ a') :
      ∃ x, a'.count x < a.count x ∧ x ∈ a ∧ x ∈ b' := by
    by_contra hno
    push Not at hno
    refine hne (Multiset.eq_of_le_of_card_le (Multiset.le_iff_count.2 fun z => ?_) hcard.ge)
    by_contra hlt
    have ha : z ∈ a := Multiset.count_pos.1 (by omega)
    have hb : 0 < b'.count z := by
      have := hcount z
      omega
    exact hno z (Nat.not_le.1 hlt) ha (Multiset.count_pos.1 hb)
  by_contra hne
  obtain ⟨x, hx, hxa, hxb⟩ := hsub hcount hcard hne
  obtain ⟨y, hy, hya, hyb⟩ := hsub (fun z => (hcount z).symm) hcard.symm (Ne.symm hne)
  have hxy : x = y := le_antisymm (hle' x hxb y hya) (hle y hyb x hxa)
  rw [hxy] at hx
  omega

/-- The values that are dropped are at most the values that are left. -/
theorem map_le (h : Selects f s kept dropped) : ∀ x ∈ dropped.map f, ∀ y ∈ kept.map f, x ≤ y := by
  intro _ hfx _ hfy
  obtain ⟨x, hx, rfl⟩ := Multiset.mem_map.1 hfx
  obtain ⟨y, hy, rfl⟩ := Multiset.mem_map.1 hfy
  exact h.le x hx y hy

/-- **The values that are left** depend on their number only. -/
theorem unique (h : Selects f s kept dropped) (h' : Selects f s kept' dropped')
    (hcard : Multiset.card kept = Multiset.card kept') : kept.map f = kept'.map f := by
  have heq : kept.map f + dropped.map f = kept'.map f + dropped'.map f := by
    rw [← Multiset.map_add, ← Multiset.map_add, ← h.eq, h'.eq]
  apply values_unique heq h.map_le h'.map_le
  rw [Multiset.card_map, Multiset.card_map, hcard]

end Selects

section lists

variable {α ι : Type} [LinearOrder ι] (f : α → ι) (less : α → α → Bool)

/-- The scan for an element of least `f`. -/
theorem foldl_least_mem (x : α) (l : List α) :
    l.foldl (fun m y => if less y m then y else m) x ∈ x :: l := by
  induction l generalizing x with
  | nil => exact List.mem_cons_self
  | cons y l ih =>
    rw [List.foldl_cons]
    rcases List.mem_cons.1 (ih (if less y x then y else x)) with he | hmem
    · rw [he]
      split
      · exact List.mem_cons_of_mem _ List.mem_cons_self
      · exact List.mem_cons_self
    · exact List.mem_cons_of_mem _ (List.mem_cons_of_mem _ hmem)

theorem foldl_least_le (hless : ∀ a b, less a b = true ↔ f a < f b) (x : α) (l : List α) :
    ∀ y ∈ x :: l, f (l.foldl (fun m y => if less y m then y else m) x) ≤ f y := by
  induction l generalizing x with
  | nil =>
    intro y hy
    rw [List.mem_singleton.1 hy]
    exact le_refl _
  | cons z l ih =>
    intro y hy
    rw [List.foldl_cons]
    have hle := ih (if less z x then z else x)
    have hstart : f (if less z x then z else x) ≤ f x ∧ f (if less z x then z else x) ≤ f z := by
      split
      · next h => exact ⟨((hless z x).1 h).le, le_refl _⟩
      · next h => exact ⟨le_refl _, not_lt.1 fun hlt => h ((hless z x).2 hlt)⟩
    rcases List.mem_cons.1 hy with rfl | hy
    · exact (hle _ List.mem_cons_self).trans hstart.1
    · rcases List.mem_cons.1 hy with rfl | hy
      · exact (hle _ List.mem_cons_self).trans hstart.2
      · exact hle y (List.mem_cons_of_mem _ hy)

/-- The first elements of a sorted list are least. -/
theorem take_insertionSort_le (hless : ∀ a b, less a b = true ↔ f a < f b) (l : List α) (n : Nat) :
    ∀ x ∈ (l.insertionSort fun a b => !less b a).take n,
      ∀ y ∈ (l.insertionSort fun a b => !less b a).drop n, f x ≤ f y := by
  have hrel (a b : α) : (!less b a) = true ↔ f a ≤ f b := by
    rw [Bool.not_eq_true', ← Bool.not_eq_true, hless, not_lt]
  have : Std.Total fun a b => (!less b a) = true := ⟨fun a b => by
    simp only [hrel]
    exact le_total _ _⟩
  have : IsTrans α fun a b => (!less b a) = true := ⟨fun a b c => by
    simp only [hrel]
    exact le_trans⟩
  have hsorted := List.pairwise_insertionSort (fun a b => (!less b a) = true) l
  rw [← List.take_append_drop n (l.insertionSort fun a b => !less b a), List.pairwise_append] at hsorted
  exact fun x hx y hy => (hrel x y).1 (hsorted.2.2 x hx y hy)

end lists
