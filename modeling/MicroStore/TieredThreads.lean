import MicroStore.TieredLinks
import MicroStore.TieredSpec
import MicroStore.Library.Threads
import Mathlib.Data.List.Perm.Subperm
import MicroStore.Library.Lockstep

/-!
# The links thread the slots

The links represent the chains and the LRU list (`Linked.Represents`), and every operation over the
links is in lockstep with the one over the lists.  So what is known of the lists, that they go through
the valid slots and no others, is known of the links, and the loops over them end.

## What is here

* `asLink` — a slot number as a link; `INVALID` is none.
* `nextLink`, `prevLink`, `hashLink` — the three kinds of links as functions, which the general lemmas
  on threaded lists (`Library/Threads.lean`) are about.
* `Represents` — the links go through the lists.
* `doubly_unlinkLru`, `doubly_linkLruFront` — unlinking and linking in front, with all assignments of
  the source: two ends of the list and two neighbours may be concerned, in any combination.
* `unlinkLoop_eq` — the loop of `unlink_l1_hash_` finds the slot and redirects the one before it.
* `Sim` — representation and well-formed slots together; it is kept by every operation.
* `lockstep_put`, `lockstep_get` and so on — the operations make the same calls of the store below, give
  the same answers and end in related states (`Library/Lockstep.lean`).
-/

set_option autoImplicit false

namespace MicroStore

/-- A slot number as a link. -/
def asLink (i : Nat) : Option Nat := if i = invalidSlot then none else some i

/-- `INVALID` is no link. -/
theorem asLink_invalid : asLink invalidSlot = none := if_pos rfl

/-- Any other number is one. -/
theorem asLink_of_ne {i : Nat} (h : i ≠ invalidSlot) : asLink i = some i := if_neg h

theorem asLink_eq_some {i j : Nat} : asLink i = some j ↔ i = j ∧ i ≠ invalidSlot := by
  rw [asLink]
  split
  · next h => exact iff_of_false (by rintro ⟨⟩) fun hj => hj.2 h
  · next h => rw [Option.some.injEq, and_iff_left h]

theorem asLink_eq_none {i : Nat} : asLink i = none ↔ i = invalidSlot := by
  rw [asLink]
  split
  · next h => exact iff_of_true rfl h
  · next h => exact iff_of_false nofun h

namespace Linked

open Threads Prog

variable {κ υ : Type} {ty : Typed κ υ} {l l' l'' : Linked κ υ} {t : Tiered κ υ} {i n : Nat}

/-- `next`, `prev` and `hash_next` as links. -/
def nextLink (l : Linked κ υ) (i : Nat) : Option Nat := asLink (l.slots i).next

/-- `prev` as a link. -/
def prevLink (l : Linked κ υ) (i : Nat) : Option Nat := asLink (l.slots i).prev

/-- `hash_next` as a link. -/
def hashLink (l : Linked κ υ) (i : Nat) : Option Nat := asLink (l.slots i).hashNext

/-- The links go through the lists. -/
structure Represents (l : Linked κ υ) (t : Tiered κ υ) : Prop where
  /-- The slots have the same members besides their links. -/
  slots : ∀ i, (l.slots i).toSlot = t.slots i
  /-- Each bucket threads its chain. -/
  chain : ∀ b, Threads.Segment l.hashLink (asLink (l.l1Buckets b)) (t.buckets b) none
  /-- The LRU list is threaded in both directions. -/
  lru : Doubly l.nextLink l.prevLink (asLink l.lruHead) (asLink l.lruTail) t.lru

/-! ## Changes of links

An assignment to one member of one slot changes one of the three functions at one place, and nothing
else. -/

/-- The slot that is assigned to. -/
theorem slots_assign_self (f : LinkedSlot κ υ) : (l.assign i f).slots i = f := Function.update_self ..

/-- The other slots. -/
theorem slots_assign_of_ne {f : LinkedSlot κ υ} {j : Nat} (hj : j ≠ i) :
    (l.assign i f).slots j = l.slots j :=
  Function.update_of_ne hj ..

/-- Links are no members. -/
theorem slots_assign_links {f : LinkedSlot κ υ} (hf : f.toSlot = (l.slots i).toSlot) (j : Nat) :
    ((l.assign i f).slots j).toSlot = (l.slots j).toSlot := by
  by_cases hj : j = i
  · rw [hj, slots_assign_self, hf]
  · rw [slots_assign_of_ne hj]

/-- A member as a function of the slot. -/
theorem slots_assign (f : LinkedSlot κ υ) {j : Nat} {α : Type} (g : LinkedSlot κ υ → α) :
    g ((l.assign i f).slots j) = Function.update (fun j => g (l.slots j)) i (g f) j := by
  by_cases hj : j = i
  · rw [hj, slots_assign_self, Function.update_self]
  · rw [slots_assign_of_ne hj, Function.update_of_ne hj]

theorem slots_setHashNext (j : Nat) : ((l.setHashNext i n).slots j).toSlot = (l.slots j).toSlot := by
  rw [setHashNext]
  exact slots_assign_links (l := l) (by rfl) j

/-- Assigning to a slot changes its links only. -/
theorem nextLink_assign (f : LinkedSlot κ υ) :
    (l.assign i f).nextLink = Function.update l.nextLink i (asLink f.next) :=
  funext fun _ => slots_assign f fun s => asLink s.next

theorem prevLink_assign (f : LinkedSlot κ υ) :
    (l.assign i f).prevLink = Function.update l.prevLink i (asLink f.prev) :=
  funext fun _ => slots_assign f fun s => asLink s.prev

theorem hashLink_assign (f : LinkedSlot κ υ) :
    (l.assign i f).hashLink = Function.update l.hashLink i (asLink f.hashNext) :=
  funext fun _ => slots_assign f fun s => asLink s.hashNext

@[simp] theorem nextLink_setNext : (l.setNext i n).nextLink = Function.update l.nextLink i (asLink n) :=
  nextLink_assign _

@[simp] theorem nextLink_setPrev : (l.setPrev i n).nextLink = l.nextLink :=
  (nextLink_assign _).trans (Function.update_eq_self ..)

@[simp] theorem nextLink_setHashNext : (l.setHashNext i n).nextLink = l.nextLink :=
  (nextLink_assign _).trans (Function.update_eq_self ..)

@[simp] theorem prevLink_setNext : (l.setNext i n).prevLink = l.prevLink :=
  (prevLink_assign _).trans (Function.update_eq_self ..)

@[simp] theorem prevLink_setPrev : (l.setPrev i n).prevLink = Function.update l.prevLink i (asLink n) :=
  prevLink_assign _

@[simp] theorem prevLink_setHashNext : (l.setHashNext i n).prevLink = l.prevLink :=
  (prevLink_assign _).trans (Function.update_eq_self ..)

@[simp] theorem hashLink_setNext : (l.setNext i n).hashLink = l.hashLink :=
  (hashLink_assign _).trans (Function.update_eq_self ..)

@[simp] theorem hashLink_setPrev : (l.setPrev i n).hashLink = l.hashLink :=
  (hashLink_assign _).trans (Function.update_eq_self ..)

@[simp] theorem hashLink_setHashNext :
    (l.setHashNext i n).hashLink = Function.update l.hashLink i (asLink n) :=
  hashLink_assign _

/-- A change of the LRU links leaves the members and the chains alone. -/
structure Relinks (l l' : Linked κ υ) : Prop where
  /-- The members are the same. -/
  slots : ∀ i, (l'.slots i).toSlot = (l.slots i).toSlot
  /-- The chains are the same. -/
  hashLink : l'.hashLink = l.hashLink
  /-- And so are their beginnings. -/
  l1Buckets : l'.l1Buckets = l.l1Buckets

/-- One change after another. -/
theorem Relinks.trans (h : Relinks l l') (h' : Relinks l' l'') : Relinks l l'' where
  slots i := (h'.slots i).trans (h.slots i)
  hashLink := h'.hashLink.trans h.hashLink
  l1Buckets := h'.l1Buckets.trans h.l1Buckets

/-- Setting `next`. -/
theorem relinks_setNext : Relinks l (l.setNext i n) :=
  ⟨slots_assign_links rfl, hashLink_setNext, rfl⟩

/-- Setting `prev`. -/
theorem relinks_setPrev : Relinks l (l.setPrev i n) :=
  ⟨slots_assign_links rfl, hashLink_setPrev, rfl⟩

/-- The node `p`, or the head if there is none, is made to point at `n`. -/
theorem redirectNext_eq (l : Linked κ υ) (p n : Nat) {l' : Linked κ υ}
    (h : l' = if p ≠ invalidSlot then l.setNext p n else { l with lruHead := n }) :
    l'.nextLink = (redirect l.nextLink (asLink l.lruHead) (asLink p) (asLink n)).1 ∧
      asLink l'.lruHead = (redirect l.nextLink (asLink l.lruHead) (asLink p) (asLink n)).2 ∧
      l'.prevLink = l.prevLink ∧ l'.lruTail = l.lruTail ∧ Relinks l l' := by
  subst h
  split
  · next hp =>
    rw [asLink_of_ne hp]
    exact ⟨nextLink_setNext, rfl, prevLink_setNext, rfl, relinks_setNext⟩
  · next hp =>
    rw [not_not.1 hp, asLink_invalid]
    exact ⟨rfl, rfl, rfl, rfl, fun _ => rfl, rfl, rfl⟩

/-- The node `p`, or the tail if there is none, is made to point back at `n`. -/
theorem redirectPrev_eq (l : Linked κ υ) (p n : Nat) {l' : Linked κ υ}
    (h : l' = if p ≠ invalidSlot then l.setPrev p n else { l with lruTail := n }) :
    l'.prevLink = (redirect l.prevLink (asLink l.lruTail) (asLink p) (asLink n)).1 ∧
      asLink l'.lruTail = (redirect l.prevLink (asLink l.lruTail) (asLink p) (asLink n)).2 ∧
      l'.nextLink = l.nextLink ∧ l'.lruHead = l.lruHead ∧ Relinks l l' := by
  subst h
  split
  · next hp =>
    rw [asLink_of_ne hp]
    exact ⟨prevLink_setPrev, rfl, nextLink_setPrev, rfl, relinks_setPrev⟩
  · next hp =>
    rw [not_not.1 hp, asLink_invalid]
    exact ⟨rfl, rfl, rfl, rfl, fun _ => rfl, rfl, rfl⟩

/-- The list without a slot. -/
theorem doubly_unlinkLru {x y : List Nat} (hnodup : (x ++ i :: y).Nodup)
    (h : Doubly l.nextLink l.prevLink (asLink l.lruHead) (asLink l.lruTail) (x ++ i :: y)) :
    Doubly (l.unlinkLru i).nextLink (l.unlinkLru i).prevLink (asLink (l.unlinkLru i).lruHead)
      (asLink (l.unlinkLru i).lruTail) (x ++ y) ∧ Relinks l (l.unlinkLru i) := by
  obtain ⟨l₁, h₁⟩ : ∃ l₁, l₁ = if (l.slots i).prev ≠ invalidSlot
      then l.setNext (l.slots i).prev (l.slots i).next else { l with lruHead := (l.slots i).next } := ⟨_, rfl⟩
  obtain ⟨l₂, h₂⟩ : ∃ l₂, l₂ = if (l.slots i).next ≠ invalidSlot
      then l₁.setPrev (l.slots i).next (l.slots i).prev else { l₁ with lruTail := (l.slots i).prev } :=
    ⟨_, rfl⟩
  have heq : l.unlinkLru i = (l₂.setPrev i invalidSlot).setNext i invalidSlot := by
    rw [h₂, h₁]
    rfl
  obtain ⟨hnext₁, hhead₁, hprev₁, htail₁, hrel₁⟩ := redirectNext_eq l _ _ h₁
  obtain ⟨hprev₂, htail₂, hnext₂, hhead₂, hrel₂⟩ := redirectPrev_eq l₁ _ _ h₂
  rw [hnext₁] at hnext₂
  rw [hprev₁, htail₁] at hprev₂ htail₂
  rw [← hhead₂] at hhead₁
  have hcut := h.unlink hnodup
  have hi : ∀ j ∈ x ++ y, j ≠ i := by
    rintro j hj rfl
    exact (List.nodup_cons.1 (List.nodup_middle.1 hnodup)).1 hj
  have hhead : asLink (l.unlinkLru i).lruHead = _ := (congrArg (asLink ∘ lruHead) heq).trans hhead₁
  have htail : asLink (l.unlinkLru i).lruTail = _ := (congrArg (asLink ∘ lruTail) heq).trans htail₂
  refine ⟨⟨?_, ?_⟩, ?_⟩
  · rw [hhead]
    refine hcut.forth.congr fun j hj => ?_
    rw [heq, nextLink_setNext, nextLink_setPrev, hnext₂, Function.update_of_ne (hi j hj)]
    rfl
  · rw [htail]
    refine hcut.back.congr fun j hj => ?_
    rw [heq, prevLink_setNext, prevLink_setPrev, hprev₂,
      Function.update_of_ne (hi j (List.mem_reverse.1 hj))]
    rfl
  · rw [heq]
    exact (hrel₁.trans hrel₂).trans (relinks_setPrev.trans relinks_setNext)

/-- The list with a slot in front. -/
theorem doubly_linkLruFront {x : List Nat} (hnodup : x.Nodup) (hi : i ∉ x) (hne : i ≠ invalidSlot)
    (h : Doubly l.nextLink l.prevLink (asLink l.lruHead) (asLink l.lruTail) x) :
    Doubly (l.linkLruFront i).nextLink (l.linkLruFront i).prevLink (asLink (l.linkLruFront i).lruHead)
      (asLink (l.linkLruFront i).lruTail) (i :: x) ∧ Relinks l (l.linkLruFront i) := by
  obtain ⟨l₁, h₁⟩ : ∃ l₁, l₁ = (l.setPrev i invalidSlot).setNext i l.lruHead := ⟨_, rfl⟩
  obtain ⟨l₂, h₂⟩ : ∃ l₂, l₂ = if l.lruHead ≠ invalidSlot then l₁.setPrev l.lruHead i else l₁ := ⟨_, rfl⟩
  have heq : l.linkLruFront i = if l.lruTail = invalidSlot
      then { l₂ with lruHead := i, lruTail := i } else { l₂ with lruHead := i } := by
    have htail : l₂.lruTail = l.lruTail := by
      rw [h₂, h₁]
      split <;> rfl
    rw [← htail, h₂, h₁]
    rfl
  have hlinked := h.link hnodup hi
  have hrel₁ : Relinks l l₁ := h₁ ▸ relinks_setPrev.trans relinks_setNext
  have hnext₁ : l₁.nextLink = Function.update l.nextLink i (asLink l.lruHead) := by
    rw [h₁, nextLink_setNext, nextLink_setPrev]
  have hprev₁ : l₁.prevLink = Function.update l.prevLink i none := by
    rw [h₁, prevLink_setNext, prevLink_setPrev, asLink_invalid]
  by_cases hhead : l.lruHead = invalidSlot
  · -- the list is empty
    obtain rfl : x = [] := List.head?_eq_none_iff.1 (h.head_eq ▸ asLink_eq_none.2 hhead)
    have htail : l.lruTail = invalidSlot := asLink_eq_none.1 h.tail_eq
    rw [if_pos htail] at heq
    rw [if_neg (not_not.2 hhead)] at h₂
    rw [hhead, asLink_invalid] at hlinked hnext₁
    rw [heq, h₂]
    refine ⟨⟨⟨asLink_of_ne hne, ?_⟩, ⟨asLink_of_ne hne, ?_⟩⟩, ⟨hrel₁.slots, hrel₁.hashLink, hrel₁.l1Buckets⟩⟩
    · exact (congrFun hnext₁ i).trans (Function.update_self ..)
    · exact (congrFun hprev₁ i).trans (Function.update_self ..)
  · have hmem : l.lruHead ∈ x := List.mem_of_head? (h.head_eq.symm.trans (asLink_of_ne hhead))
    have hhi : l.lruHead ≠ i := fun he => hi (he ▸ hmem)
    have htail : l.lruTail ≠ invalidSlot := by
      intro htail
      have hx := h.tail_eq.symm.trans (asLink_eq_none.2 htail)
      rw [List.getLast?_eq_none_iff.1 hx] at hmem
      cases hmem
    rw [if_neg htail] at heq
    rw [if_pos hhead] at h₂
    rw [asLink_of_ne hhead] at hlinked hnext₁
    have hnext : (l.linkLruFront i).nextLink = Function.update l.nextLink i (some l.lruHead) := by
      rw [heq, h₂, ← hnext₁]
      exact nextLink_setPrev
    have hprev : (l.linkLruFront i).prevLink
        = Function.update (Function.update l.prevLink l.lruHead (some i)) i none := by
      rw [Function.update_comm hhi, ← hprev₁, ← asLink_of_ne hne, heq, h₂]
      exact prevLink_setPrev
    rw [hnext, hprev]
    have hends : asLink (l.linkLruFront i).lruHead = some i ∧
        asLink (l.linkLruFront i).lruTail = asLink l.lruTail := by
      rw [heq, h₂, h₁]
      exact ⟨asLink_of_ne hne, rfl⟩
    rw [hends.1, hends.2]
    refine ⟨hlinked, ?_⟩
    rw [heq, h₂]
    exact hrel₁.trans ⟨relinks_setPrev.slots, relinks_setPrev.hashLink, rfl⟩

/-! ## The lists after a change of links

The same changes of the lists, in the model with lists. -/

/-- The slots have the same keys. -/
theorem Represents.key_eq (h : Represents l t) (i : Nat) : (l.slots i).key = (t.slots i).key := by
  rw [← h.slots]

/-- Members are set, links are kept. -/
theorem Represents.set (h : Represents l t) (i : Nat) (s : Slot κ υ) : Represents (l.set i s) (t.set i s) := by
  have hnext : (l.set i s).nextLink = l.nextLink := (nextLink_assign _).trans (Function.update_eq_self ..)
  have hprev : (l.set i s).prevLink = l.prevLink := (prevLink_assign _).trans (Function.update_eq_self ..)
  have hhash : (l.set i s).hashLink = l.hashLink := (hashLink_assign _).trans (Function.update_eq_self ..)
  refine ⟨fun j => ?_, fun b => hhash ▸ h.chain b, ?_⟩
  · by_cases hj : j = i
    · rw [hj, Tiered.set_slots_self, Linked.set, slots_assign_self]
    · rw [Tiered.set_slots_of_ne hj, Linked.set, slots_assign_of_ne hj, h.slots]
  · rw [hnext, hprev]
    exact h.lru

/-- A change of the LRU list alone. -/
theorem Represents.of_relinks {t' : Tiered κ υ} (h : Represents l t) (hr : Relinks l l')
    (hslots : t'.slots = t.slots) (hbuckets : t'.buckets = t.buckets)
    (hlru : Doubly l'.nextLink l'.prevLink (asLink l'.lruHead) (asLink l'.lruTail) t'.lru) :
    Represents l' t' where
  slots j := by rw [hr.slots, h.slots, hslots]
  chain b := by
    rw [hr.hashLink, hr.l1Buckets, hbuckets]
    exact h.chain b
  lru := hlru

/-- `unlink_lru_`. -/
theorem Represents.unlinkLru (h : Represents l t) (hnodup : t.lru.Nodup) (hi : i ∈ t.lru) :
    Represents (l.unlinkLru i) (t.unlinkLru i) := by
  obtain ⟨x, y, hxy, herase⟩ := split_of_mem hnodup hi
  have hlru := h.lru
  rw [hxy] at hlru hnodup
  obtain ⟨hcut, hrel⟩ := doubly_unlinkLru hnodup hlru
  have hcut' : (t.unlinkLru i).lru = x ++ y := herase
  exact h.of_relinks hrel rfl rfl (hcut' ▸ hcut)

/-- `link_lru_front_`. -/
theorem Represents.linkLruFront (h : Represents l t) (hnodup : t.lru.Nodup) (hi : i ∉ t.lru)
    (hne : i ≠ invalidSlot) : Represents (l.linkLruFront i) (t.linkLruFront i) := by
  obtain ⟨hlinked, hrel⟩ := doubly_linkLruFront hnodup hi hne h.lru
  exact h.of_relinks hrel rfl rfl hlinked

/-- `link_l1_hash_`. -/
theorem Represents.linkHash (h : Represents l t) (hi : ∀ b, i ∉ t.buckets b) (hne : i ≠ invalidSlot) :
    Represents (linkHash ty l i) (Tiered.linkHash ty t i) := by
  obtain ⟨b, hb⟩ : ∃ b, Tiered.bucket ty (t.slots i).key = b := ⟨_, rfl⟩
  have hlb : Tiered.bucket ty (l.slots i).key = b := by rw [h.key_eq, hb]
  obtain ⟨l₁, hl₁⟩ : ∃ l₁, l.setHashNext i (l.l1Buckets b) = l₁ := ⟨_, rfl⟩
  have heq : Linked.linkHash ty l i = l₁.setBucket b i := by rw [Linked.linkHash, hlb, hl₁]
  have hhash : l₁.hashLink = Function.update l.hashLink i (asLink (l.l1Buckets b)) :=
    hl₁ ▸ hashLink_setHashNext
  have hchain (c : Nat) : Threads.Segment l₁.hashLink (asLink (l.l1Buckets c)) (t.buckets c) none := by
    refine (h.chain c).congr fun j hj => ?_
    rw [hhash, Function.update_of_ne]
    rintro rfl
    exact hi c hj
  rw [heq]
  refine ⟨fun j => ?_, fun c => ?_, ?_⟩
  · rw [← hl₁]
    exact (slots_setHashNext j).trans (h.slots j)
  · have hbuckets : (Tiered.linkHash ty t i).buckets = Function.update t.buckets b (i :: t.buckets b) := by
      rw [Tiered.linkHash, hb]
    have hheads : (l₁.setBucket b i).l1Buckets = Function.update l.l1Buckets b i := hl₁ ▸ rfl
    rw [hbuckets, hheads]
    by_cases hc : c = b
    · rw [hc, Function.update_self, Function.update_self]
      refine ⟨asLink_of_ne hne, ?_⟩
      have hself : (l₁.setBucket b i).hashLink i = asLink (l.l1Buckets b) :=
        (congrFun hhash i).trans (Function.update_self ..)
      rw [hself]
      exact hchain b
    · rw [Function.update_of_ne hc, Function.update_of_ne hc]
      exact hchain c
  · rw [← hl₁]
    have hn : (l.setHashNext i (l.l1Buckets b)).nextLink = l.nextLink := nextLink_setHashNext
    have hp : (l.setHashNext i (l.l1Buckets b)).prevLink = l.prevLink := prevLink_setHashNext
    exact ⟨hn ▸ h.lru.forth, hp ▸ h.lru.back⟩

/-- The loop of `unlink_l1_hash_` redirects the slot before the one it unlinks. -/
theorem unlinkLoop_eq {b fuel idx p : Nat} {c d : List Nat}
    (hc : Threads.Segment l.hashLink (asLink idx) (c ++ i :: d) none) (hi : i ∉ c) (hfuel : c.length < fuel) :
    l.unlinkLoop b i fuel idx p = some
      (let p := c.getLast?.getD p
      let l' := if p = invalidSlot then l.setBucket b (l.slots i).hashNext
        else l.setHashNext p (l.slots i).hashNext
      l'.setHashNext i invalidSlot) := by
  induction c generalizing fuel idx p with
  | nil =>
    obtain ⟨fuel, rfl⟩ := Nat.exists_eq_succ_of_ne_zero (Nat.ne_of_gt hfuel)
    obtain ⟨rfl, hne⟩ := asLink_eq_some.1 hc.1
    rw [unlinkLoop, if_neg hne, if_pos rfl]
    rfl
  | cons j c ih =>
    obtain ⟨fuel, rfl⟩ := Nat.exists_eq_succ_of_ne_zero (Nat.ne_of_gt (Nat.lt_of_le_of_lt (Nat.zero_le _) hfuel))
    obtain ⟨rfl, hne⟩ := asLink_eq_some.1 hc.1
    rw [List.mem_cons, not_or] at hi
    rw [unlinkLoop, if_neg hne, if_neg (Ne.symm hi.1), ih hc.2 hi.2 (Nat.lt_of_succ_lt_succ hfuel)]
    rw [List.getLast?_cons, Option.getD_some]

variable [DecidableEq κ] [Inhabited κ] [Inhabited υ] {s : Slot κ υ}

/-- The links represent lists that go through the valid slots. -/
structure Sim (ty : Typed κ υ) (l : Linked κ υ) (t : Tiered κ υ) : Prop where
  /-- The lists go through the valid slots. -/
  wf : Tiered.Wf ty t
  /-- The links go through the lists. -/
  threads : Represents l t

omit [DecidableEq κ] in
/-- A new store. -/
theorem sim_new : Sim ty (new : Linked κ υ) Tiered.new where
  wf := Tiered.wf_new
  threads := ⟨fun _ => rfl, fun _ => asLink_invalid, asLink_invalid, asLink_invalid⟩

omit [DecidableEq κ] in
/-- A valid slot has a number that is not `INVALID`. -/
theorem Sim.ne_invalid (h : Sim ty l t) (hi : (t.slots i).valid = true) : i ≠ invalidSlot := by
  have hlt := (h.wf.lt i hi).2
  rintro rfl
  revert hlt
  decide

/-! ## The loops end

A chain has no slot twice, so it is no longer than there are slots, and the supply of rounds
suffices. -/

omit [DecidableEq κ] in
/-- A chain has at most as many slots as there are. -/
theorem Sim.length_chain (h : Sim ty l t) (b : Nat) : (t.buckets b).length < chainFuel := by
  have hsub : t.buckets b ⊆ List.range (2 ^ 15) := fun i hi =>
    List.mem_range.2 (h.wf.lt i ((h.wf.memChain b i).1 hi).1).2
  have hle := (List.subperm_of_subset (h.wf.chainNodup b) hsub).length_le
  rw [List.length_range] at hle
  exact Nat.lt_of_le_of_lt hle (by decide)

omit [Inhabited κ] [Inhabited υ] in
/-- `find_l1_` goes through the chain. -/
theorem findLoop_eq (hslots : ∀ i, (l.slots i).toSlot = t.slots i) {k : κ} {fuel idx : Nat}
    {c : List Nat} (hc : Threads.Segment l.hashLink (asLink idx) c none) (hfuel : c.length < fuel) :
    l.findLoop k fuel idx = some ((c.find? fun i =>
      (t.slots i).valid && decide ((t.slots i).key = k)).bind asInt16) := by
  induction c generalizing fuel idx with
  | nil =>
    obtain ⟨fuel, rfl⟩ := Nat.exists_eq_succ_of_ne_zero (Nat.ne_of_gt hfuel)
    rw [findLoop, if_pos (asLink_eq_none.1 hc)]
    rfl
  | cons i c ih =>
    obtain ⟨fuel, rfl⟩ := Nat.exists_eq_succ_of_ne_zero (Nat.ne_of_gt (Nat.lt_of_le_of_lt (Nat.zero_le _) hfuel))
    obtain ⟨rfl, hne⟩ := asLink_eq_some.1 hc.1
    rw [findLoop, if_neg hne, List.find?_cons, ← hslots]
    cases hp : (l.slots idx).valid && decide ((l.slots idx).key = k) with
    | true => rfl
    | false => exact ih hc.2 (Nat.lt_of_succ_lt_succ hfuel)

/-- The loop finds what the lookup over the lists finds. -/
theorem Sim.findLoop_eq (h : Sim ty l t) (k : κ) :
    l.findLoop k chainFuel (l.l1Buckets (Tiered.bucket ty k)) = some (Tiered.find ty t k) :=
  Linked.findLoop_eq h.threads.slots (h.threads.chain _) (h.length_chain _)

/-- So does the lookup. -/
theorem Sim.find_eq (h : Sim ty l t) (k : κ) : find ty l k = Tiered.find ty t k := by
  rw [find, h.findLoop_eq]
  rfl

/-! ## The lists under the operations

Unlinking from a chain needs the invariant: that the slot is on the chain of its bucket. -/

omit [DecidableEq κ] in
/-- `unlink_l1_hash_`. -/
theorem Sim.unlinkHash (h : Sim ty l t) (hv : (t.slots i).valid = true) :
    Represents (unlinkHash ty l i) (Tiered.unlinkHash ty t i) := by
  obtain ⟨b, hb⟩ : ∃ b, Tiered.bucket ty (t.slots i).key = b := ⟨_, rfl⟩
  have hi : i ∈ t.buckets b := (h.wf.memChain b i).2 ⟨hv, hb⟩
  have hmem {c j : Nat} (hj : j ∈ t.buckets c) :
      (t.slots j).valid = true ∧ Tiered.bucket ty (t.slots j).key = c := (h.wf.memChain c j).1 hj
  have hnodup := h.wf.chainNodup b
  obtain ⟨c, d, hcd, herase⟩ := split_of_mem hnodup hi
  have hchain := h.threads.chain b
  have hlen := h.length_chain b
  rw [hcd] at hchain hlen hnodup
  have hic : i ∉ c := fun hi => (List.nodup_append.1 hnodup).2.2 i hi i List.mem_cons_self rfl
  have hcut := hchain.unlink hnodup
  -- the slot before it is redirected, or the bucket
  obtain ⟨l₁, hl₁⟩ : ∃ l₁, l₁ = if c.getLast?.getD invalidSlot = invalidSlot
      then l.setBucket b (l.slots i).hashNext
      else l.setHashNext (c.getLast?.getD invalidSlot) (l.slots i).hashNext := ⟨_, rfl⟩
  have heq : Linked.unlinkHash ty l i = l₁.setHashNext i invalidSlot := by
    rw [Linked.unlinkHash, h.threads.key_eq, hb, unlinkLoop_eq hchain hic, hl₁]
    · rfl
    · rw [List.length_append] at hlen
      omega
  have hl₁' : (∀ j, (l₁.slots j).toSlot = (l.slots j).toSlot) ∧
      l₁.hashLink = (redirect l.hashLink (asLink (l.l1Buckets b)) c.getLast? (l.hashLink i)).1 ∧
      asLink (l₁.l1Buckets b)
        = (redirect l.hashLink (asLink (l.l1Buckets b)) c.getLast? (l.hashLink i)).2 ∧
      (∀ e, e ≠ b → l₁.l1Buckets e = l.l1Buckets e) ∧ l₁.nextLink = l.nextLink ∧
      l₁.prevLink = l.prevLink ∧ l₁.lruHead = l.lruHead ∧ l₁.lruTail = l.lruTail := by
    cases hlast : c.getLast? with
    | none =>
      rw [hlast, Option.getD_none, if_pos rfl] at hl₁
      subst hl₁
      exact ⟨fun _ => rfl, rfl, congrArg asLink (Function.update_self ..),
        fun e he => Function.update_of_ne he .., rfl, rfl, rfl, rfl⟩
    | some q =>
      have hq : q ∈ t.buckets b := hcd ▸ List.mem_append_left _ (List.mem_of_getLast? hlast)
      rw [hlast, Option.getD_some, if_neg (h.ne_invalid (hmem hq).1)] at hl₁
      subst hl₁
      exact ⟨slots_setHashNext, hashLink_setHashNext, rfl, fun _ _ => rfl, nextLink_setHashNext,
        prevLink_setHashNext, rfl, rfl⟩
  obtain ⟨hslots, hhash, hhead, hheads, hnext, hprev, hlh, hlt⟩ := hl₁'
  have hbuckets : (Tiered.unlinkHash ty t i).buckets = Function.update t.buckets b (c ++ d) := by
    rw [Tiered.unlinkHash, hb, herase]
  rw [heq]
  refine ⟨fun j => ?_, fun e => ?_, ?_⟩
  · rw [slots_setHashNext, hslots, h.threads.slots]
    rfl
  · rw [hbuckets, hashLink_setHashNext, asLink_invalid]
    change Threads.Segment _ (asLink (l₁.l1Buckets e)) _ _
    by_cases he : e = b
    · rw [he, Function.update_self, hhead]
      refine hcut.congr fun j hj => ?_
      rw [Function.update_of_ne, hhash]
      rintro rfl
      exact (List.nodup_cons.1 (List.nodup_middle.1 hnodup)).1 hj
    · rw [Function.update_of_ne he, hheads e he]
      refine (h.threads.chain e).congr fun j hj => ?_
      have hne {j' : Nat} (hj' : j' ∈ t.buckets b) : j ≠ j' := by
        rintro rfl
        exact he ((hmem hj).2.symm.trans (hmem hj').2)
      rw [Function.update_of_ne (hne hi), hhash]
      cases hlast : c.getLast? with
      | none => rfl
      | some q =>
        exact Function.update_of_ne (hne (hcd ▸ List.mem_append_left _ (List.mem_of_getLast? hlast))) ..
  · rw [nextLink_setHashNext, prevLink_setHashNext, hnext, hprev]
    change Doubly _ _ (asLink l₁.lruHead) (asLink l₁.lruTail) _
    rw [hlh, hlt]
    exact h.threads.lru

omit [DecidableEq κ] in
/-- Resetting a slot that is on no list. -/
theorem Represents.reset (h : Represents l t) (hlru : i ∉ t.lru) (hbuckets : ∀ b, i ∉ t.buckets b) :
    Represents (l.assign i default) (t.set i default) where
  slots j := by
    by_cases hj : j = i
    · rw [hj, Tiered.set_slots_self, slots_assign_self]
      rfl
    · rw [Tiered.set_slots_of_ne hj, slots_assign_of_ne hj, h.slots]
  chain b := by
    refine (h.chain b).congr fun j hj => ?_
    rw [hashLink_assign, Function.update_of_ne]
    rintro rfl
    exact hbuckets b hj
  lru := by
    refine ⟨h.lru.forth.congr fun j hj => ?_, h.lru.back.congr fun j hj => ?_⟩
    · rw [nextLink_assign, Function.update_of_ne]
      rintro rfl
      exact hlru hj
    · rw [prevLink_assign, Function.update_of_ne]
      rintro rfl
      exact hlru (List.mem_reverse.1 hj)

/-! ## Changes of one slot

The four changes of `TieredCache.lean`, over the links. -/

section sim

omit [DecidableEq κ] in
/-- Members of a valid slot are set. -/
theorem Sim.set (h : Sim ty l t) (hi : (t.slots i).valid = true) (hv : s.valid = true)
    (hk : s.key = (t.slots i).key) : Sim ty (l.set i s) (t.set i s) :=
  ⟨h.wf.set hi hv hk, h.threads.set i s⟩

omit [DecidableEq κ] in
/-- `touch_l1_`. -/
theorem Sim.touch (h : Sim ty l t) (hi : (t.slots i).valid = true) : Sim ty (l.touch i) (t.touch i) := by
  refine ⟨h.wf.touch hi, ?_⟩
  have hmem := (h.wf.memLru i).2 hi
  have hiff : i = l.lruHead ↔ t.lru.head? = some i := by
    rw [← h.threads.lru.head_eq, asLink_eq_some]
    exact ⟨fun he => ⟨he.symm, he ▸ h.ne_invalid hi⟩, fun he => he.1.symm⟩
  rw [Linked.touch, Tiered.touch]
  by_cases hhead : i = l.lruHead
  · rw [if_pos hhead, if_pos (hiff.1 hhead)]
    exact h.threads
  · rw [if_neg hhead, if_neg fun he => hhead (hiff.2 he)]
    refine (h.threads.unlinkLru h.wf.lruNodup hmem).linkLruFront (h.wf.lruNodup.erase i) (fun hin => ?_)
      (h.ne_invalid hi)
    exact (h.wf.lruNodup.mem_erase_iff.1 hin).1 rfl

omit [DecidableEq κ] in
/-- `remove_l1_slot_`. -/
theorem Sim.removeSlot (h : Sim ty l t) (hi : (t.slots i).valid = true) :
    Sim ty (removeSlot ty l i) (Tiered.removeSlot ty t i) := by
  refine ⟨h.wf.removeSlot hi, ?_⟩
  have hmem := (h.wf.memLru i).2 hi
  have hl : (l.slots i).valid = true := by rw [h.threads.slots i, hi]
  rw [Tiered.removeSlot_eq hi, Linked.removeSlot, hl]
  refine ((h.unlinkHash hi).unlinkLru h.wf.lruNodup hmem).reset (fun hin => ?_) fun b hin => ?_
  · exact (h.wf.lruNodup.mem_erase_iff.1 hin).1 rfl
  · change i ∈ Function.update t.buckets _ _ b at hin
    by_cases hb : b = Tiered.bucket ty (t.slots i).key
    · rw [hb, Function.update_self] at hin
      exact ((h.wf.chainNodup _).mem_erase_iff.1 hin).1 rfl
    · rw [Function.update_of_ne hb] at hin
      exact hb ((h.wf.memChain b i).1 hin).2.symm

/-- A free slot gets a new key. -/
theorem Sim.link (h : Sim ty l t) (hi : Tiered.Free ty t i) (hv : s.valid = true)
    (hk : Tiered.cell ty t s.key = none) :
    Sim ty ((linkHash ty (l.set i s) i).linkLruFront i)
      ((Tiered.linkHash ty (t.set i s) i).linkLruFront i) := by
  refine ⟨h.wf.link hi.valid hi.lt hv hk, ?_⟩
  have hne : i ≠ invalidSlot := by
    rintro rfl
    exact absurd hi.lt.2 (by decide)
  have hfree : ¬(t.slots i).valid = true := by rw [hi.valid]; exact Bool.false_ne_true
  refine ((h.threads.set i s).linkHash (fun b hin => ?_) hne).linkLruFront h.wf.lruNodup (fun hin => ?_) hne
  · exact hfree ((h.wf.memChain b i).1 hin).1
  · exact hfree ((h.wf.memLru i).1 hin)

end sim

/-! ## The operations in lockstep

From the helpers up.  A lemma is named after the function of the source with `lockstep_` in front. -/

section lockstep

variable {now : UInt32}

/-- The same answer, and links that represent the lists. -/
def Matches (ty : Typed κ υ) {α : Type} (a : α × Linked κ υ) (b : α × Tiered κ υ) : Prop :=
  a.1 = b.1 ∧ Sim ty a.2 b.2

omit [DecidableEq κ] in
theorem lockstep_expireSlot (h : Sim ty l t) (hi : (t.slots i).valid = true) :
    Lockstep (fun a b => Sim ty a b ∧ b = Tiered.removeSlot ty t i) (expireSlot ty l i)
      (Tiered.expireSlot ty t i) := by
  rw [expireSlot, Tiered.expireSlot, h.threads.slots i]
  split
  · exact .perform fun _ => .ret ⟨h.removeSlot hi, rfl⟩
  · exact .ret ⟨h.removeSlot hi, rfl⟩

omit [DecidableEq κ] in
theorem lockstep_pruneLoop {n : Nat} (h : Sim ty l t) :
    Lockstep (Sim ty) (pruneLoop ty now n i l) (Tiered.pruneLoop ty now n i t) := by
  induction n generalizing i l t with
  | zero => exact .ret h
  | succ n ih =>
    rw [pruneLoop, Tiered.pruneLoop, h.threads.slots i]
    split
    · next hexp =>
      rw [Bool.and_eq_true] at hexp
      exact (lockstep_expireSlot h hexp.1).bind fun _ _ h' => ih h'.1
    · exact ih h

omit [DecidableEq κ] in
theorem lockstep_pruneExpired (h : Sim ty l t) :
    Lockstep (Sim ty) (pruneExpired ty now l) (Tiered.pruneExpired ty now t) :=
  lockstep_pruneLoop h

theorem lockstep_flushSlot (h : Sim ty l t) :
    Lockstep (fun a b => Matches ty a b ∧ ((t.slots i).valid = true → (b.2.slots i).valid = true ∧
        ∀ k, Tiered.cell ty t k = none → Tiered.cell ty b.2 k = none))
      (flushSlot ty now l i) (Tiered.flushSlot ty now t i) := by
  rw [flushSlot, Tiered.flushSlot, h.threads.slots i]
  split
  · exact .ret ⟨⟨rfl, h⟩, fun hv => ⟨hv, fun _ hk => hk⟩⟩
  · next hno =>
    have hv : (t.slots i).valid = true := by
      cases hv : (t.slots i).valid with
      | true => rfl
      | false => exact absurd (by rw [hv]; rfl) hno
    refine .perform fun r => ?_
    cases r with
    | false => exact .ret ⟨⟨rfl, h⟩, fun hv => ⟨hv, fun _ hk => hk⟩⟩
    | true =>
      refine .ret ⟨⟨rfl, h.set hv hv rfl⟩, fun _ => ⟨?_, fun k hk => ?_⟩⟩
      · rw [Tiered.set_slots_self]
        exact hv
      · have hset : Tiered.cell ty (t.set i (t.slots i).flushed) = _ := h.wf.cell_set hv hv rfl
        change Tiered.cell ty (t.set i (t.slots i).flushed) k = none
        rw [hset, Function.update_of_ne]
        · exact hk
        · rintro rfl
          cases (h.wf.cell_of_valid hv).symm.trans hk

/-- The slot that is allocated is free, and the keys that are in no slot still are not. -/
theorem lockstep_allocateSlot (h : Sim ty l t) :
    Lockstep (fun a b => Matches ty a b ∧ (∀ j, b.1 = some j → Tiered.Free ty b.2 j) ∧
        ∀ k, Tiered.cell ty t k = none → Tiered.cell ty b.2 k = none)
      (allocateSlot ty now l) (Tiered.allocateSlot ty now t) := by
  have hfree : freeSlot ty l = Tiered.freeSlot ty t := by
    rw [freeSlot, Tiered.freeSlot]
    simp only [h.threads.slots]
  -- a slot is freed by removing it
  have removed {l : Linked κ υ} {t₁ : Tiered κ υ} {e : Nat} (h₁ : Sim ty l t₁)
      (he : (t₁.slots e).valid = true)
      (hk : ∀ k, Tiered.cell ty t k = none → Tiered.cell ty t₁ k = none) :
      (∀ j, asInt16 e = some j → Tiered.Free ty (Tiered.removeSlot ty t₁ e) j) ∧
        ∀ k, Tiered.cell ty t k = none → Tiered.cell ty (Tiered.removeSlot ty t₁ e) k = none := by
    refine ⟨fun j hj => ?_, fun k hno => ?_⟩
    · have hint : asInt16 e = some e := if_pos (h₁.wf.lt e he).2
      obtain rfl := Option.some.inj (hint.symm.trans hj)
      refine ⟨?_, h₁.wf.lt e he⟩
      rw [Tiered.Wf.removeSlot_free he]
      rfl
    · rw [h₁.wf.cell_removeSlot he]
      by_cases hke : k = (t₁.slots e).key
      · rw [hke, Function.update_self]
      · rw [Function.update_of_ne hke]
        exact hk k hno
  rw [allocateSlot, Tiered.allocateSlot, hfree]
  cases hf : Tiered.freeSlot ty t with
  | some j =>
    refine .ret ⟨⟨rfl, h⟩, fun i hi => ?_, fun _ hk => hk⟩
    obtain rfl := Option.some.inj hi
    exact Tiered.free_of_freeSlot hf
  | none =>
    dsimp only
    have htail := h.threads.lru.tail_eq
    cases hlast : t.lru.getLast? with
    | none =>
      rw [hlast] at htail
      rw [if_pos (asLink_eq_none.1 htail)]
      exact .ret ⟨⟨rfl, h⟩, by rintro _ ⟨⟩, fun _ hk => hk⟩
    | some e =>
      rw [hlast] at htail
      obtain ⟨he, hne⟩ := asLink_eq_some.1 htail
      have hv : (t.slots e).valid = true := (h.wf.memLru e).1 (List.mem_of_getLast? hlast)
      rw [if_neg hne, he, h.threads.slots e]
      dsimp only
      split
      · refine (lockstep_expireSlot h hv).bind fun a b hab => .ret ?_
        obtain ⟨hsim, rfl⟩ := hab
        exact ⟨⟨rfl, hsim⟩, removed h hv fun _ hk => hk⟩
      · refine (lockstep_flushSlot h).bind fun a b hab => ?_
        obtain ⟨⟨hok, hsim⟩, hkeep⟩ := hab
        obtain ⟨hv', hk⟩ := hkeep hv
        obtain ⟨ok, l₁⟩ := a
        obtain ⟨ok', t₁⟩ := b
        obtain rfl : ok = ok' := hok
        dsimp only
        split
        · exact .ret ⟨⟨rfl, hsim⟩, by rintro _ ⟨⟩, hk⟩
        · exact .ret ⟨⟨rfl, hsim.removeSlot hv'⟩, removed hsim hv' hk⟩

/-- A new slot is linked with a key that is in no slot. -/
theorem Matches.link {x : Linked κ υ} {y : Tiered κ υ} {j : Nat} (h : Sim ty x y)
    (hj : Tiered.Free ty y j) (hv : s.valid = true) (hk : Tiered.cell ty y s.key = none) {α : Type} (r : α) :
    Matches ty (r, (linkHash ty (x.set j s) j).linkLruFront j)
      (r, (Tiered.linkHash ty (y.set j s) j).linkLruFront j) :=
  ⟨rfl, h.link hj hv hk⟩

/-- **A put over the links is one over the lists.** -/
theorem lockstep_put (h : Sim ty l t) {k : κ} {v : υ} {ttl : UInt32} {priority : UInt8} :
    Lockstep (Matches ty) (put ty now l k v ttl priority) (Tiered.put ty now t k v ttl priority) := by
  refine .perform fun r => ?_
  cases r with
  | false => exact .ret ⟨rfl, h⟩
  | true =>
    refine (lockstep_pruneExpired h).bind fun l₁ t₁ h₁ => ?_
    rw [h₁.find_eq]
    cases hf : Tiered.find ty t₁ k with
    | some i =>
      dsimp only
      have hv := (h₁.wf.find_eq_some.1 hf).1
      rw [h₁.threads.slots i]
      refine .ret ⟨rfl, Sim.touch (Sim.set h₁ hv ?_ ?_) ?_⟩
      · exact hv
      · rfl
      · rw [Tiered.set_slots_self]
        exact hv
    | none =>
      refine (lockstep_allocateSlot h₁).bind fun a b hab => ?_
      obtain ⟨⟨hi, h₂⟩, hfree, hk⟩ := hab
      obtain ⟨slot, l₂⟩ := a
      obtain ⟨slot', t₂⟩ := b
      obtain rfl : slot = slot' := hi
      cases slot with
      | none => exact .ret ⟨rfl, h₂⟩
      | some i =>
        exact .perform fun inL2 => .ret (.link h₂ (hfree i rfl) rfl (hk k (Tiered.cell_eq_none.2 hf)) true)

theorem lockstep_get (h : Sim ty l t) {k : κ} :
    Lockstep (Matches ty) (get ty now l k) (Tiered.get ty now t k) := by
  refine .perform fun r => ?_
  cases r with
  | false => exact .ret ⟨rfl, h⟩
  | true =>
    dsimp only
    rw [h.find_eq]
    cases hf : Tiered.find ty t k with
    | some i =>
      dsimp only
      have hv := (h.wf.find_eq_some.1 hf).1
      rw [h.threads.slots i]
      split
      · exact (lockstep_expireSlot h hv).bind fun _ _ h' => .ret ⟨rfl, h'.1⟩
      · exact .ret ⟨rfl, h.touch hv⟩
    | none =>
      refine .perform fun raw => ?_
      cases raw with
      | none => exact .ret ⟨rfl, h⟩
      | some raw =>
        dsimp only
        cases ty.valueCodec.decode raw with
        | none => exact .ret ⟨rfl, h⟩
        | some decoded =>
          refine (lockstep_allocateSlot h).bind fun a b hab => ?_
          obtain ⟨⟨hi, h₂⟩, hfree, hk⟩ := hab
          obtain ⟨slot, l₂⟩ := a
          obtain ⟨slot', t₂⟩ := b
          obtain rfl : slot = slot' := hi
          cases slot with
          | none => exact .ret ⟨rfl, h₂⟩
          | some i =>
            dsimp only at h₂ ⊢
            rw [h₂.threads.slots i]
            exact .ret (.link h₂ (hfree i rfl) rfl (hk k (Tiered.cell_eq_none.2 hf)) (some decoded))

theorem lockstep_remove (h : Sim ty l t) {k : κ} :
    Lockstep (Matches ty) (remove ty l k) (Tiered.remove ty t k) := by
  refine .perform fun r => ?_
  cases r with
  | false => exact .ret ⟨rfl, h⟩
  | true =>
    have rest {l : Linked κ υ} {t : Tiered κ υ} (h : Sim ty l t) (inL2 : Bool) : Lockstep (Matches ty)
        (if inL2 then storeCall (.remove (ty.keyCodec.encode k)) >>= fun ok => pure (ok, l) else pure (true, l))
        (if inL2 then storeCall (.remove (ty.keyCodec.encode k)) >>= fun ok => pure (ok, t)
          else pure (true, t)) := by
      cases inL2 with
      | true => exact .perform fun _ => .ret ⟨rfl, h⟩
      | false => exact .ret ⟨rfl, h⟩
    dsimp only
    rw [h.find_eq]
    cases hf : Tiered.find ty t k with
    | some i =>
      have hin : (l.slots i).inL2 = (t.slots i).inL2 := by rw [h.threads.slots i]
      dsimp only
      rw [hin]
      exact rest (h.removeSlot (h.wf.find_eq_some.1 hf).1) _
    | none => exact .perform fun inL2 => rest h inL2

theorem lockstep_exists (h : Sim ty l t) {k : κ} :
    Lockstep (Matches ty) (Linked.exists ty now l k) (Tiered.exists ty now t k) := by
  refine .perform fun r => ?_
  cases r with
  | false => exact .ret ⟨rfl, h⟩
  | true =>
    dsimp only
    rw [h.find_eq]
    cases hf : Tiered.find ty t k with
    | some i =>
      dsimp only
      have hv := (h.wf.find_eq_some.1 hf).1
      rw [h.threads.slots i]
      split
      · exact (lockstep_expireSlot h hv).bind fun _ _ h' => .ret ⟨rfl, h'.1⟩
      · exact .ret ⟨rfl, h⟩
    | none => exact .perform fun found => .ret ⟨rfl, h⟩

omit [DecidableEq κ] in
/-- The slots that the store below knows nothing of. -/
theorem Sim.onlyL1_eq (h : Sim ty l t) : onlyL1 ty l = Tiered.onlyL1 ty t := by
  rw [onlyL1, Tiered.onlyL1]
  simp only [h.threads.slots]

omit [DecidableEq κ] in
theorem lockstep_size (h : Sim ty l t) : Lockstep (· = ·) (size ty l) (Tiered.size ty t) := by
  rw [size, Tiered.size, h.onlyL1_eq]
  exact .refl _

theorem lockstep_syncLoop {n : Nat} {ok : Bool} (h : Sim ty l t) :
    Lockstep (Matches ty) (syncLoop ty now n ok l) (Tiered.syncLoop ty now n ok t) := by
  induction n generalizing ok l t with
  | zero => exact .ret ⟨rfl, h⟩
  | succ n ih =>
    rw [syncLoop, Tiered.syncLoop, h.threads.slots n]
    split
    · exact ih h
    · next hno =>
      have hv : (t.slots n).valid = true := by
        cases hv : (t.slots n).valid with
        | true => rfl
        | false => exact absurd (by rw [hv]; rfl) hno
      have flush : Lockstep (Matches ty)
          (flushSlot ty now l n >>= fun x => syncLoop ty now n (ok && x.1) x.2)
          (Tiered.flushSlot ty now t n >>= fun x => Tiered.syncLoop ty now n (ok && x.1) x.2) := by
        refine (lockstep_flushSlot h).bind fun a b hab => ?_
        obtain ⟨flushed, l₁⟩ := a
        obtain ⟨flushed', t₁⟩ := b
        obtain ⟨⟨hok, hsim⟩, -⟩ := hab
        obtain rfl : flushed = flushed' := hok
        exact ih hsim
      split
      · refine .perform fun found => ?_
        cases found with
        | true => exact flush
        | false => exact ih (h.removeSlot hv)
      · exact flush

theorem lockstep_sync (h : Sim ty l t) :
    Lockstep (Matches ty) (sync ty now l) (Tiered.sync ty now t) := by
  refine .perform fun r => ?_
  cases r with
  | false => exact .ret ⟨rfl, h⟩
  | true => exact (lockstep_pruneExpired h).bind fun _ _ h₁ => lockstep_syncLoop h₁

omit [DecidableEq κ] in
theorem lockstep_clear (h : Sim ty l t) : Lockstep (Sim ty) (clear l) (Tiered.clear t) := by
  refine .perform fun r => ?_
  cases r with
  | false => exact .ret h
  | true => exact .perform fun _ => .ret sim_new

theorem lockstep_iterate (h : Sim ty l t) :
    Lockstep (Matches ty) (iterate ty now l) (Tiered.iterate ty now t) := by
  refine .perform fun r => ?_
  cases r with
  | false => exact .ret ⟨rfl, h⟩
  | true =>
    refine (lockstep_pruneExpired h).bind fun l₁ t₁ h₁ => .perform fun raws => .ret ⟨?_, h₁⟩
    have hmerge : mergeEntry ty l₁ = Tiered.mergeEntry ty t₁ := by
      funext raw
      rw [mergeEntry, Tiered.mergeEntry]
      cases ty.keyCodec.decode raw.1 with
      | none => rfl
      | some key =>
        dsimp only
        rw [h₁.find_eq]
        cases Tiered.find ty t₁ key with
        | none => rfl
        | some i => exact congrArg (fun s => some (s.key, s.value)) (h₁.threads.slots i)
    dsimp only
    rw [hmerge, h₁.onlyL1_eq]
    simp only [h₁.threads.slots]

end lockstep

end Linked

end MicroStore
