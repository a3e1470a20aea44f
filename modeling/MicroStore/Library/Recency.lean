import Mathlib.Data.Finset.Card
import Mathlib.Data.List.Nodup

/-!
# The latest few

What was used last is kept as a list, latest first, which is cut off behind its `n`-th element
(`touch`).  Where the elements bear stamps and a later use has a greater one, the list is sorted by
them, and what lies before the cut has fewer than `n` elements with greater stamps (`later_lt`).

This is what connects two descriptions of a cache: one that keeps a list in the order of use, and one
that drops what has the least stamp.

* `touch` — a use of an element, and that it keeps the list short and without repetition.
* `later_lt` — the elements before the cut, by their stamps.
* `mem_iff_mem_take` — how a bounded set of elements is recognised: it is what lies before the cut as soon
  as it is within the list, has all that lies before the cut, and is small enough.
-/

set_option autoImplicit false

namespace Recency

variable {α : Type} {n : Nat} {x y : α} {l : List α}

/-! ## Before the cut

These hold of any list and ask nothing of the type. -/

/-- Fewer than `n` elements have a greater stamp than one that lies before the cut. -/
theorem later_lt {f : α → Nat} (hsorted : l.Pairwise fun a b => f b < f a) (hx : x ∈ l.take n)
    {G : Finset α} (hG : ∀ y ∈ G, y ∈ l ∧ f x < f y) : G.card < n := by
  classical
  have hsub : G ⊆ (l.take n).toFinset.erase x := by
    intro y hy
    obtain ⟨hyl, hlt⟩ := hG y hy
    refine Finset.mem_erase.2 ⟨fun he => ?_, List.mem_toFinset.2 ?_⟩
    · rw [he] at hlt
      exact lt_irrefl _ hlt
    · -- what lies behind the cut has a smaller stamp than what lies before it
      rw [← List.take_append_drop n l] at hyl hsorted
      refine (List.mem_append.1 hyl).resolve_right fun hdrop => ?_
      exact lt_asymm hlt ((List.pairwise_append.1 hsorted).2.2 x hx y hdrop)
  have hmem : x ∈ (l.take n).toFinset := List.mem_toFinset.2 hx
  have hpos : 0 < (l.take n).toFinset.card := Finset.card_pos.2 ⟨x, hmem⟩
  have hcard := Finset.card_le_card hsub
  rw [Finset.card_erase_of_mem hmem] at hcard
  have hle := ((l.take n).toFinset_card_le).trans (List.length_take_le n l)
  omega

/-- A set of at most `n` elements of the list that has all of those before the cut has no others. -/
theorem mem_iff_mem_take {K : Finset α} (hl : l.Nodup) (hsub : ∀ y ∈ K, y ∈ l)
    (htake : ∀ y ∈ l.take n, y ∈ K) (hcard : K.card ≤ n) : x ∈ K ↔ x ∈ l.take n := by
  classical
  rcases Nat.le_total l.length n with hle | hle
  · rw [List.take_of_length_le hle] at htake ⊢
    exact ⟨hsub x, htake x⟩
  · have hnodup : (l.take n).Nodup := hl.sublist (List.take_sublist ..)
    have hlen : (l.take n).toFinset.card = n := by
      rw [List.toFinset_card_of_nodup hnodup, List.length_take, Nat.min_eq_left hle]
    have heq : (l.take n).toFinset = K :=
      Finset.eq_of_subset_of_card_le (fun y hy => htake y (List.mem_toFinset.1 hy)) (hlen.symm ▸ hcard)
    rw [← heq, List.mem_toFinset]

/-! ## The list

An element that is used again is taken out of its place, which needs a decidable equality. -/

variable [BEq α]

/-- The element has been used: it goes to the front. -/
def touch (n : Nat) (x : α) (l : List α) : List α := (x :: l.erase x).take n

theorem length_touch_le : (touch n x l).length ≤ n := List.length_take_le _ _

variable [LawfulBEq α]

theorem nodup_cons_erase (h : l.Nodup) : (x :: l.erase x).Nodup :=
  List.nodup_cons.2 ⟨h.not_mem_erase, h.erase x⟩

theorem nodup_touch (h : l.Nodup) : (touch n x l).Nodup :=
  (nodup_cons_erase h).sublist (List.take_sublist ..)

theorem mem_cons_erase (h : l.Nodup) : y ∈ x :: l.erase x ↔ y = x ∨ y ∈ l := by
  rw [List.mem_cons, h.mem_erase_iff]
  by_cases hy : y = x
  · simp [hy]
  · simp [hy]

end Recency
