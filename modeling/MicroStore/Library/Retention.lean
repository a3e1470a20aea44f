import Mathlib.Data.Finset.Card
import Mathlib.Order.Basic

/-!
# Keeping the greatest

A bounded collection that drops its least elements to make room keeps the greatest of those it has had.
`TopPart T S n` says that `T` is what is left of `S` when least elements are dropped until there are
`n`.  What makes this an invariant is that an element stays as long as there are fewer than `n` greater ones
(`TopPart.mem_of_few`), whichever set these are counted in.

* `TopPart` — the relation, as a structure of three facts: nothing new, nothing below what was dropped,
  and nothing dropped without need.
* `TopPart.of_card_le`, `TopPart.of_erase` — how it comes about, one dropped element at a time.
* `TopPart.mem_of_few` — what it is for.

`Library/Selection.lean` is about the same thing for elements with a rank, where the order is not total and
which elements are left is not determined.
-/

set_option autoImplicit false

/-- What is left of `S` when least elements are dropped until there are `n`. -/
structure TopPart {α : Type} [LinearOrder α] (T S : Finset α) (n : Nat) : Prop where
  /-- It is a part. -/
  subset : T ⊆ S
  /-- With an element it has every greater one. -/
  upper : ∀ x ∈ T, ∀ y ∈ S, x < y → y ∈ T
  /-- It has `n` elements, or all there are. -/
  card : T.card = min n S.card

namespace TopPart

variable {α : Type} [LinearOrder α] {T S : Finset α} {n : Nat} {x : α}

/-- Nothing has to be dropped. -/
theorem of_card_le (h : S.card ≤ n) : TopPart S S n where
  subset := subset_rfl
  upper _ _ _ hy _ := hy
  card := (Nat.min_eq_right h).symm

/-- The least element is dropped first. -/
theorem of_erase [DecidableEq α] (h : TopPart T (S.erase x) n) (hx : x ∈ S) (hleast : ∀ y ∈ S, x ≤ y)
    (hn : n < S.card) : TopPart T S n where
  subset := h.subset.trans (Finset.erase_subset x S)
  upper y hy z hz hlt := by
    refine h.upper y hy z (Finset.mem_erase.2 ⟨?_, hz⟩) hlt
    rintro rfl
    exact absurd hlt (not_lt_of_ge (hleast y (Finset.mem_of_mem_erase (h.subset hy))))
  card := by
    rw [h.card, Finset.card_erase_of_mem hx]
    omega

/-- **What has few greater elements stays.** -/
theorem mem_of_few (h : TopPart T S n) (hx : x ∈ S)
    (hfew : ∀ G : Finset α, (∀ y ∈ G, y ∈ S ∧ x < y) → G.card < n) : x ∈ T := by
  by_contra hnot
  -- then all that is left is greater
  have hT : T.card < n := hfew T fun y hy => ⟨h.subset hy, by
    rcases lt_trichotomy x y with hlt | rfl | hlt
    · exact hlt
    · exact absurd hy hnot
    · exact absurd (h.upper y hy x hx hlt) hnot⟩
  have hcard := h.card
  have hle : S.card ≤ T.card := by omega
  exact hnot (Finset.eq_of_subset_of_card_le h.subset hle ▸ hx)

end TopPart
