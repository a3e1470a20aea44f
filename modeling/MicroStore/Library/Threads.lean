import Mathlib.Data.List.Nodup
import Mathlib.Logic.Function.Basic

/-!
# Lists threaded through a table

The nodes of an intrusive list are the indices of a table, and the links are members of its entries.
`Segment next a l b` says that whoever starts at the link `a` and follows `next` goes through `l` and ends
at the link `b`.  A list ends at `none`; a doubly linked list is a segment in both directions, the second
one through the reversed list.  Unlinking a node and linking one at the front are two changes of links,
one in each direction, of which `redirect` is the only one that is not at the node itself.

## What is here

* `Segment` — a list or a part of one, by recursion on the nodes, so that a proof follows the list and not
  the number of steps.
* `Segment.congr` — only the links of the nodes matter, so an update elsewhere leaves a list alone.
* `Segment.redirect`, `Segment.unlink` — the two changes for one direction.
* `Doubly`, `Doubly.unlink`, `Doubly.link` — both directions at once, which is what a program does.
* `split_of_mem` — a node in the middle, to start an argument from.

A list threaded like this has no cycle and no node twice as soon as `l` has no repetition, and the lemmas
keep that fact where a program could break it.
-/

set_option autoImplicit false

namespace Threads

variable {ι : Type} {next next' : ι → Option ι} {a b c : Option ι} {l l' : List ι} {i : ι}

/-- From `a`, following `next`, through `l` to `b`. -/
def Segment (next : ι → Option ι) (a : Option ι) : List ι → Option ι → Prop
  | [], b => a = b
  | i :: l, b => a = some i ∧ Segment next (next i) l b

theorem segment_cons : Segment next a (i :: l) b ↔ a = some i ∧ Segment next (next i) l b := Iff.rfl

theorem segment_append : Segment next a (l ++ l') b ↔ ∃ c, Segment next a l c ∧ Segment next c l' b := by
  induction l generalizing a with
  | nil => exact ⟨fun h => ⟨a, rfl, h⟩, fun ⟨_, hc, h⟩ => hc ▸ h⟩
  | cons i l ih =>
    rw [List.cons_append, segment_cons, ih]
    constructor
    · rintro ⟨ha, c, h, h'⟩
      exact ⟨c, ⟨ha, h⟩, h'⟩
    · rintro ⟨c, ⟨ha, h⟩, h'⟩
      exact ⟨ha, c, h, h'⟩

/-- The links outside of the segment do not matter. -/
theorem Segment.congr (h : Segment next a l b) (hl : ∀ i ∈ l, next' i = next i) :
    Segment next' a l b := by
  induction l generalizing a with
  | nil => exact h
  | cons i l ih =>
    refine ⟨h.1, ?_⟩
    rw [hl i List.mem_cons_self]
    exact ih h.2 fun j hj => hl j (List.mem_cons_of_mem i hj)

/-- The link a list starts at. -/
theorem Segment.head (h : Segment next a l none) : a = l.head? := by
  cases l with
  | nil => exact h
  | cons i l => exact h.1

/-- The node that is followed by a part of the list. -/
theorem Segment.link (h : Segment next a (l ++ i :: l') none) : next i = l'.head? := by
  obtain ⟨_, -, -, h⟩ := segment_append.1 h
  exact h.head

/-- A doubly linked list: `next` and `prev` go through it in opposite directions. -/
structure Doubly (next prev : ι → Option ι) (head tail : Option ι) (l : List ι) : Prop where
  /-- From the head on, the nodes come in order. -/
  forth : Segment next head l none
  /-- From the tail on, they come in the opposite order. -/
  back : Segment prev tail l.reverse none

variable {prev : ι → Option ι} {head tail : Option ι}

theorem Doubly.head_eq (h : Doubly next prev head tail l) : head = l.head? := h.forth.head

theorem Doubly.tail_eq (h : Doubly next prev head tail l) : tail = l.getLast? := by
  rw [h.back.head, List.head?_reverse]

/-- The node before a node. -/
theorem Doubly.prev_eq (h : Doubly next prev head tail (l ++ i :: l')) : prev i = l.getLast? := by
  have hb := h.back
  rw [List.reverse_append, List.reverse_cons, List.append_assoc] at hb
  have hlink : prev i = l.reverse.head? := Segment.link hb
  rw [hlink, List.head?_reverse]

theorem Doubly.next_eq (h : Doubly next prev head tail (l ++ i :: l')) : next i = l'.head? := h.forth.link

variable [DecidableEq ι]

/-- Make the node `p`, or the start if there is none, point at `c`. -/
def redirect (next : ι → Option ι) (a p c : Option ι) : (ι → Option ι) × Option ι :=
  match p with
  | none => (next, c)
  | some p => (Function.update next p c, a)

/-- Another end for a segment: its last node is redirected. -/
theorem Segment.redirect (h : Segment next a l b) (hl : l.Nodup) (c : Option ι) :
    Segment (redirect next a l.getLast? c).1 (redirect next a l.getLast? c).2 l c := by
  rcases l.eq_nil_or_concat with rfl | ⟨l, p, rfl⟩
  · rfl
  · rw [List.concat_eq_append] at h hl ⊢
    rw [List.getLast?_concat]
    obtain ⟨m, h, hm, -⟩ := segment_append.1 h
    have hp : p ∉ l := (List.nodup_cons.1 (List.nodup_append_comm.1 hl)).1
    refine segment_append.2 ⟨m, h.congr fun i hi => ?_, hm, ?_⟩
    · refine Function.update_of_ne ?_ ..
      rintro rfl
      exact hp hi
    · exact Function.update_self ..

/-- Unlinking a node redirects the node before it. -/
theorem Segment.unlink (h : Segment next a (l ++ i :: l') b) (hl : (l ++ i :: l').Nodup) :
    Segment (Threads.redirect next a l.getLast? (next i)).1
      (Threads.redirect next a l.getLast? (next i)).2 (l ++ l') b := by
  obtain ⟨m, hfront, hi⟩ := segment_append.1 h
  refine segment_append.2 ⟨next i, hfront.redirect (List.nodup_append.1 hl).1 (next i), ?_⟩
  refine hi.2.congr fun j hj => ?_
  -- the node that is redirected is not behind the one that is unlinked
  cases hp : l.getLast? with
  | none => rfl
  | some p =>
    refine Function.update_of_ne ?_ ..
    rintro rfl
    exact (List.nodup_append.1 hl).2.2 j (List.mem_of_getLast? hp) j (List.mem_cons_of_mem i hj) rfl

/-- In a doubly linked list the node after it is redirected as well. -/
theorem Doubly.unlink (h : Doubly next prev head tail (l ++ i :: l')) (hl : (l ++ i :: l').Nodup) :
    Doubly (Threads.redirect next head (prev i) (next i)).1 (Threads.redirect prev tail (next i) (prev i)).1
      (Threads.redirect next head (prev i) (next i)).2 (Threads.redirect prev tail (next i) (prev i)).2
      (l ++ l') := by
  constructor
  · rw [h.prev_eq]
    exact h.forth.unlink hl
  · have hrev : (l ++ i :: l').reverse = l'.reverse ++ i :: l.reverse := by
      rw [List.reverse_append, List.reverse_cons, List.append_assoc]
      rfl
    have hback := h.back
    rw [hrev] at hback
    have hnodup := List.nodup_reverse.2 hl
    rw [hrev] at hnodup
    rw [List.reverse_append, h.next_eq, ← List.getLast?_reverse]
    exact hback.unlink hnodup

/-- Linking a node at the front redirects the first node backwards. -/
theorem Doubly.link (h : Doubly next prev head tail l) (hl : l.Nodup) (hi : i ∉ l) :
    Doubly (Function.update next i head) (Function.update (Threads.redirect prev tail head (some i)).1 i none)
      (some i) (Threads.redirect prev tail head (some i)).2 (i :: l) := by
  constructor
  · refine ⟨rfl, ?_⟩
    rw [Function.update_self]
    refine h.forth.congr fun j hj => Function.update_of_ne ?_ ..
    rintro rfl
    exact hi hj
  · rw [List.reverse_cons]
    have hback := h.back.redirect (List.nodup_reverse.2 hl) (some i)
    rw [List.getLast?_reverse, ← h.head_eq] at hback
    refine segment_append.2 ⟨some i, hback.congr fun j hj => ?_, rfl, ?_⟩
    · refine Function.update_of_ne ?_ ..
      rintro rfl
      exact hi (List.mem_reverse.1 hj)
    · exact Function.update_self ..

/-- A node of the list, with what is before and behind it. -/
theorem split_of_mem (hl : l.Nodup) (hi : i ∈ l) :
    ∃ x y, l = x ++ i :: y ∧ l.erase i = x ++ y := by
  obtain ⟨x, y, rfl⟩ := List.append_of_mem hi
  refine ⟨x, y, rfl, ?_⟩
  have hx : i ∉ x := fun h => (List.nodup_append.1 hl).2.2 i h i List.mem_cons_self rfl
  rw [List.erase_append_right _ hx, List.erase_cons_head]

end Threads
