import MicroStore.TieredThreads
import MicroStore.TieredSession

/-!
# Runs over the links

Whatever the store below answers, after any operations the links thread the slots (`links_thread`).  The
LRU list has the keys in the order of their last uses, so what is evicted is what has not been used for
longest, and nothing that has changed is evicted before the store below has taken it, unless it has
expired (`evictions_least_recent`).

## Runs

`LinkedState` is a tiered store over links, with the store below, and the keys in the order of their
last uses.  That order is kept beside the store and computed from the operations and their answers
(`TieredOp.recent`): a put or a get that succeeds is a use.  The store below is any function from calls
to answers; nothing is assumed of it.

## What is here

* `Linked.Threaded`, `FindsSlots`, `UnlinksSlots` — the chains and the LRU list are whole, every lookup
  finds its slot, and every slot can be unlinked.  `links_thread` says so of every run.
* `Tiered.Thins` — what an operation may do without using a key: drop slots, without changing the order
  of the others.
* `Tiered.Parts` — a slot is given up only if it has expired or the store below has taken it.
* `Tiered.Ordered` — the LRU list is in the order of the last uses; `Ordered.use`, `Ordered.touch`,
  `Ordered.link` are the ways it changes.
* `Tiered.Evicts` — both together, with the slot that is reused when there is no free one.
* `answers_put`, `answers_get` and so on — one lemma for each operation, over the lists.
* `Sim.orderedByUse`, `Sim.evicts`, `Sim.reusesLast`, `Sim.evictsSaved` — the same over the links.
* `evictions_least_recent` — the result.
-/

set_option autoImplicit false

namespace MicroStore

/-! ## The run

The operations over the links, performed one after the other. -/

namespace Linked

variable {κ υ σ : Type} [DecidableEq κ] [Inhabited κ] [Inhabited υ] (ty : Typed κ υ)

/-- Perform one operation, and tell whether it succeeds. -/
def perform (now : UInt32) (l : Linked κ υ) : TieredOp κ υ → StoreM (Bool × Linked κ υ)
  | .put key value ttl priority => put ty now l key value ttl priority
  | .get key => do
    let (v, l) ← get ty now l key
    pure (v.isSome, l)
  | .exists key => Linked.exists ty now l key
  | .remove key => remove ty l key
  | .size => do
    let _ ← size ty l
    pure (true, l)
  | .iterate => do
    let (_, l) ← iterate ty now l
    pure (true, l)
  | .sync => sync ty now l
  | .clear => do
    let l ← clear l
    pure (true, l)

end Linked

/-- The keys from the one used last on: the ones that were put or read successfully. -/
def TieredOp.recent {κ υ : Type} [DecidableEq κ] (keys : List κ) (ok : Bool) : TieredOp κ υ → List κ
  | .put key _ _ _ | .get key => if ok = true then key :: keys.erase key else keys
  | .exists _ | .remove _ | .size | .iterate | .sync | .clear => keys

/-- The key that an operation may give a slot. -/
def TieredOp.inserts {κ υ : Type} : TieredOp κ υ → Option κ
  | .put key _ _ _ | .get key => some key
  | .exists _ | .remove _ | .size | .iterate | .sync | .clear => none

/-- The operations that drop what has expired first. -/
def TieredOp.prunes {κ υ : Type} : TieredOp κ υ → Bool
  | .put .. | .iterate | .sync => true
  | .get _ | .exists _ | .remove _ | .size | .clear => false

/-- A tiered store in a run: its links, the store below, and the keys by their last use. -/
structure LinkedState (κ υ σ : Type) where
  /-- The tiered store. -/
  links : Linked κ υ
  /-- The store below. -/
  store : σ
  /-- The keys in the order of their last uses, the last one first. -/
  recent : List κ

namespace LinkedState

variable {κ υ σ : Type} [DecidableEq κ] [Inhabited κ] [Inhabited υ] (ty : Typed κ υ)
  (handle : (c : StoreCall) → σ → c.Reply × σ)

/-- Perform one operation at a time. -/
def step (x : LinkedState κ υ σ) (op : UInt32 × TieredOp κ υ) : LinkedState κ υ σ :=
  let y := Prog.exec handle (Linked.perform ty op.1 x.links op.2) x.store
  ⟨y.1.2, y.2, op.2.recent x.recent y.1.1⟩

/-- Perform operations on a new tiered store. -/
def run (s : σ) (ops : List (UInt32 × TieredOp κ υ)) : LinkedState κ υ σ :=
  ops.foldl (step ty handle) ⟨Linked.new, s, []⟩

end LinkedState

/-! ## The links thread the slots

Said of the links alone, so that the statement does not depend on the model with lists. -/

namespace Linked

open Threads Prog

variable {κ υ σ : Type} [DecidableEq κ] [Inhabited κ] [Inhabited υ] {ty : Typed κ υ}
  {l : Linked κ υ} {t : Tiered κ υ} {i : Nat}

/-- Every operation is in lockstep with the one over the lists. -/
theorem lockstep_perform (h : Sim ty l t) (now : UInt32) (op : TieredOp κ υ) :
    Lockstep (Matches ty) (perform ty now l op) (Tiered.perform ty now t op) := by
  cases op with
  | put => exact lockstep_put h
  | get => exact (lockstep_get h).bind fun _ _ hab => .ret ⟨congrArg Option.isSome hab.1, hab.2⟩
  | «exists» => exact lockstep_exists h
  | remove => exact lockstep_remove h
  | size => exact (lockstep_size h).bind fun _ _ _ => .ret ⟨rfl, h⟩
  | iterate => exact (lockstep_iterate h).bind fun _ _ hab => .ret ⟨rfl, hab.2⟩
  | sync => exact lockstep_sync h
  | clear => exact (lockstep_clear h).bind fun _ _ hab => .ret ⟨rfl, hab⟩

/-- What the links say, in terms of the lists they go through. -/
structure Threaded (ty : Typed κ υ) (l : Linked κ υ) (chains : Nat → List Nat) (lru : List Nat) : Prop where
  /-- Each chain can be followed to its end. -/
  chain : ∀ b < ty.hashBuckets.toNat, Threads.Segment l.hashLink (asLink (l.l1Buckets b)) (chains b) none
  /-- It does not come back to a slot. -/
  chainNodup : ∀ b, (chains b).Nodup
  /-- It goes through the valid slots of its bucket. -/
  memChain : ∀ b i, i ∈ chains b ↔
    i < ty.cacheSize.toNat ∧ (l.slots i).valid = true ∧ Tiered.bucket ty (l.slots i).key = b
  /-- The LRU list can be followed in both directions. -/
  doubly : Doubly l.nextLink l.prevLink (asLink l.lruHead) (asLink l.lruTail) lru
  /-- It does not come back to a slot. -/
  lruNodup : lru.Nodup
  /-- It goes through the valid slots. -/
  memLru : ∀ i, i ∈ lru ↔ i < ty.cacheSize.toNat ∧ (l.slots i).valid = true
  /-- No two valid slots have the same key. -/
  inj : ∀ i j, (l.slots i).valid = true → (l.slots j).valid = true →
    (l.slots i).key = (l.slots j).key → i = j

/-- The loop of `find_l1_` ends, with the valid slot of the key if there is one. -/
def FindsSlots (ty : Typed κ υ) (l : Linked κ υ) : Prop :=
  ∀ k, l.findLoop k chainFuel (l.l1Buckets (Tiered.bucket ty k)) = some (find ty l k) ∧
    ∀ i, find ty l k = some i ↔
      i < ty.cacheSize.toNat ∧ (l.slots i).valid = true ∧ (l.slots i).key = k

/-- The loop of `unlink_l1_hash_` ends. -/
def UnlinksSlots (ty : Typed κ υ) (l : Linked κ υ) : Prop :=
  ∀ i, (l.slots i).valid = true → (l.unlinkLoop (Tiered.bucket ty (l.slots i).key) i chainFuel
    (l.l1Buckets (Tiered.bucket ty (l.slots i).key)) invalidSlot).isSome

omit [DecidableEq κ] in
/-- The same slots are valid. -/
theorem Sim.valid_eq (h : Sim ty l t) (i : Nat) : (l.slots i).valid = (t.slots i).valid := by
  rw [h.threads.slots i]

omit [DecidableEq κ] in
/-- So the links thread the slots. -/
theorem Sim.threaded (h : Sim ty l t) : Threaded ty l t.buckets t.lru where
  chain b _ := h.threads.chain b
  chainNodup := h.wf.chainNodup
  memChain b i := by
    rw [h.wf.memChain, h.threads.slots]
    exact ⟨fun hi => ⟨(h.wf.lt i hi.1).1, hi⟩, fun hi => hi.2⟩
  doubly := h.threads.lru
  lruNodup := h.wf.lruNodup
  memLru i := by
    rw [h.wf.memLru, h.threads.slots]
    exact ⟨fun hi => ⟨(h.wf.lt i hi).1, hi⟩, fun hi => hi.2⟩
  inj i j := by
    rw [h.threads.slots, h.threads.slots]
    exact h.wf.inj i j

/-- Every lookup finds its slot. -/
theorem Sim.findsSlots (h : Sim ty l t) : FindsSlots ty l := by
  intro k
  rw [h.findLoop_eq, h.find_eq]
  refine ⟨rfl, fun i => ?_⟩
  rw [h.wf.find_eq_some, h.threads.slots]
  exact ⟨fun hi => ⟨(h.wf.lt i hi.1).1, hi⟩, fun hi => hi.2⟩

omit [DecidableEq κ] in
/-- Every valid slot can be unlinked. -/
theorem Sim.unlinksSlots (h : Sim ty l t) : UnlinksSlots ty l := by
  intro i hi
  rw [h.valid_eq] at hi
  rw [h.threads.key_eq]
  have hmem := (h.wf.memChain _ i).2 ⟨hi, rfl⟩
  obtain ⟨c, d, hcd, -⟩ := split_of_mem (h.wf.chainNodup _) hmem
  have hchain := h.threads.chain (Tiered.bucket ty (t.slots i).key)
  have hlen := h.length_chain (Tiered.bucket ty (t.slots i).key)
  have hnodup := h.wf.chainNodup (Tiered.bucket ty (t.slots i).key)
  rw [hcd] at hchain hlen hnodup
  rw [List.length_append] at hlen
  rw [unlinkLoop_eq hchain (fun hin => ?_) (by omega)]
  · rfl
  · exact (List.nodup_append.1 hnodup).2.2 i hin i List.mem_cons_self rfl

end Linked

/-- The lists the links of a run go through. -/
theorem LinkedState.run_sim {κ υ σ : Type} [DecidableEq κ] [Inhabited κ] [Inhabited υ] (ty : Typed κ υ)
    (handle : (c : StoreCall) → σ → c.Reply × σ) (s : σ) (ops : List (UInt32 × TieredOp κ υ)) :
    ∃ t, Linked.Sim ty (run ty handle s ops).links t := by
  have steps {x : LinkedState κ υ σ} {t : Tiered κ υ} (h : Linked.Sim ty x.links t) :
      ∃ t, Linked.Sim ty (ops.foldl (step ty handle) x).links t := by
    induction ops generalizing x t with
    | nil => exact ⟨t, h⟩
    | cons op ops ih => exact ih ((Linked.lockstep_perform h op.1 op.2).exec handle x.store).1.2
  exact steps Linked.sim_new

/-- **The links thread the slots** after any operations, over any store below: every valid slot is on the
chain of its key's bucket, on no other one, and on the LRU list, once each, no other slot is on any, the
loops over them end, and no two slots have the same key. -/
theorem links_thread {κ υ σ : Type} [DecidableEq κ] [Inhabited κ] [Inhabited υ] (ty : Typed κ υ)
    (handle : (c : StoreCall) → σ → c.Reply × σ) (s : σ) (ops : List (UInt32 × TieredOp κ υ)) :
    (∃ chains lru, Linked.Threaded ty (LinkedState.run ty handle s ops).links chains lru) ∧
      Linked.FindsSlots ty (LinkedState.run ty handle s ops).links ∧
      Linked.UnlinksSlots ty (LinkedState.run ty handle s ops).links := by
  obtain ⟨t, h⟩ := LinkedState.run_sim ty handle s ops
  exact ⟨⟨_, _, h.threaded⟩, h.findsSlots, h.unlinksSlots⟩

/-! ## The order of the last uses

An operation does two things to the LRU list: on the way it may drop slots, and in the end it moves
one to the front. -/

namespace Tiered

variable {κ υ : Type} [DecidableEq κ] [Inhabited κ] [Inhabited υ] {ty : Typed κ υ}
  {t t' t'' : Tiered κ υ} {i : Nat}

/-- The answers to the calls, whatever they do to the store below. -/
def answers (took : (c : StoreCall) → c.Reply → Prop) : StoreRel Unit := fun c _ r _ => took c r

/-- The keys on the LRU list. -/
def lruKeys (t : Tiered κ υ) : List κ := t.lru.map fun i => (t.slots i).key

/-- Slots go, and those that stay keep their keys and their order. -/
structure Thins (ty : Typed κ υ) (t t' : Tiered κ υ) : Prop where
  /-- The slots are well formed. -/
  wf : Wf ty t'
  /-- The list has lost slots at most. -/
  lru : t'.lru.Sublist t.lru
  /-- A slot that is left is the one it was. -/
  key : ∀ j, (t'.slots j).valid = true →
    (t.slots j).valid = true ∧ (t'.slots j).key = (t.slots j).key

omit [DecidableEq κ] in
/-- Nothing is dropped. -/
theorem Thins.refl (h : Wf ty t) : Thins ty t t := ⟨h, .refl _, fun _ hj => ⟨hj, rfl⟩⟩

omit [DecidableEq κ] in
/-- First some, then others. -/
theorem Thins.trans (h : Thins ty t t') (h' : Thins ty t' t'') : Thins ty t t'' where
  wf := h'.wf
  lru := h'.lru.trans h.lru
  key j hj := by
    obtain ⟨hv', hk'⟩ := h'.key j hj
    obtain ⟨hv, hk⟩ := h.key j hv'
    exact ⟨hv, hk'.trans hk⟩

omit [DecidableEq κ] in
/-- The keys keep their order. -/
theorem Thins.keys (h : Thins ty t t') : t'.lruKeys.Sublist t.lruKeys := by
  have heq : t'.lruKeys = t'.lru.map fun i => (t.slots i).key := by
    refine List.map_congr_left fun j hj => ?_
    exact (h.key j ((h.wf.memLru j).1 hj)).2
  rw [heq]
  exact h.lru.map _

/-- A key without a slot does not get one. -/
theorem Thins.cell_none (h : Thins ty t t') (hwf : Wf ty t) {k : κ} (hk : cell ty t k = none) :
    cell ty t' k = none := by
  rw [cell_eq_none, hwf.find_eq_none] at hk
  rw [cell_eq_none, h.wf.find_eq_none]
  intro j hj he
  obtain ⟨hv, hkey⟩ := h.key j hj
  exact hk j hv (hkey.symm.trans he)

omit [DecidableEq κ] in
/-- Removing a slot. -/
theorem thins_removeSlot (h : Wf ty t) (hi : (t.slots i).valid = true) :
    Thins ty t (removeSlot ty t i) := by
  refine ⟨h.removeSlot hi, ?_, fun j hj => ?_⟩
  · rw [removeSlot_eq hi]
    exact List.erase_sublist
  · by_cases hji : j = i
    · rw [hji, Wf.removeSlot_free hi] at hj
      cases hj
    · rw [removeSlot_eq hi, set_slots_of_ne hji] at hj ⊢
      exact ⟨hj, rfl⟩

omit [DecidableEq κ] in
/-- Removing all. -/
theorem thins_new : Thins ty t new := ⟨wf_new, List.nil_sublist _, fun _ hj => nomatch hj⟩

omit [DecidableEq κ] in
/-- Setting the other members of a slot. -/
theorem thins_set (h : Wf ty t) (hi : (t.slots i).valid = true) {s : Slot κ υ} (hv : s.valid = true)
    (hk : s.key = (t.slots i).key) : Thins ty t (t.set i s) := by
  refine ⟨h.set hi hv hk, .refl _, fun j hj => ⟨?_, set_slots_key hk⟩⟩
  rwa [set_slots_valid (hv.trans hi.symm)] at hj

/-- What may be evicted: what has expired, has not changed, or has been taken by the store below. -/
def Parted (ty : Typed κ υ) (now : UInt32) (took : (c : StoreCall) → c.Reply → Prop)
    (sl : Slot κ υ) : Prop :=
  sl.isExpired now = true ∨ sl.dirty = false ∨ took (flushCall ty now sl) true

/-- The valid slots stay as they are, but for those that may be evicted. -/
def Parts (ty : Typed κ υ) (now : UInt32) (took : (c : StoreCall) → c.Reply → Prop)
    (t t' : Tiered κ υ) : Prop :=
  ∀ j, (t.slots j).valid = true → t'.slots j = t.slots j ∨ Parted ty now took (t.slots j)

section rules

variable {now : UInt32} {took : (c : StoreCall) → c.Reply → Prop} {u : Unit}

omit [DecidableEq κ] [Inhabited κ] [Inhabited υ] in
/-- Nothing is given up. -/
theorem Parts.refl (t : Tiered κ υ) : Parts ty now took t t := fun _ _ => .inl rfl

omit [DecidableEq κ] [Inhabited κ] [Inhabited υ] in
/-- First some, then others. -/
theorem Parts.trans (h : Parts ty now took t t') (h' : Parts ty now took t' t'') :
    Parts ty now took t t'' := by
  intro j hv
  rcases h j hv with he | hp
  · rw [← he] at hv ⊢
    exact h' j hv
  · exact .inr hp

omit [DecidableEq κ] in
/-- A slot that may be given up. -/
theorem parts_removeSlot (hi : (t.slots i).valid = true) (hp : Parted ty now took (t.slots i)) :
    Parts ty now took t (removeSlot ty t i) := by
  intro j _
  by_cases hj : j = i
  · exact .inr (hj ▸ hp)
  · rw [removeSlot_eq hi]
    exact .inl (set_slots_of_ne hj)

omit [DecidableEq κ] in
/-- An expired slot is dropped. -/
theorem answers_expireSlot (took : (c : StoreCall) → c.Reply → Prop) :
    (answers took).wp (expireSlot ty t i) (fun t' _ => t' = removeSlot ty t i) u := by
  rw [expireSlot]
  split
  · exact StoreRel.wp_call fun _ _ _ => rfl
  · rfl

omit [DecidableEq κ] in
/-- So are all of them. -/
theorem answers_pruneLoop {n : Nat} (h : Wf ty t) :
    (answers took).wp (pruneLoop ty now n i t) (fun t' _ => Thins ty t t' ∧ Parts ty now took t t' ∧
      ((∀ j, (t.slots j).valid = true → (t.slots j).isExpired now = false) → t' = t)) u := by
  induction n generalizing i t u with
  | zero => exact ⟨.refl h, .refl t, fun _ => rfl⟩
  | succ n ih =>
    rw [pruneLoop]
    split
    · next hexp =>
      rw [Bool.and_eq_true] at hexp
      refine StoreRel.wp_seq (answers_expireSlot took) fun t₁ _ ht₁ => ?_
      have hthin := thins_removeSlot h hexp.1
      rw [← ht₁] at hthin
      refine Prog.wp_mono (ih hthin.wf) fun t' _ h' => ⟨hthin.trans h'.1, .trans ?_ h'.2.1, fun hlive => ?_⟩
      · rw [ht₁]
        exact parts_removeSlot hexp.1 (.inl hexp.2)
      · cases (hlive i hexp.1).symm.trans hexp.2
    · exact ih h

omit [DecidableEq κ] in
/-- At the beginning of an operation. -/
theorem answers_pruneExpired (h : Wf ty t) :
    (answers took).wp (pruneExpired ty now t) (fun t' _ => Thins ty t t' ∧ Parts ty now took t t' ∧
      ((∀ j, (t.slots j).valid = true → (t.slots j).isExpired now = false) → t' = t)) u :=
  answers_pruneLoop h

omit [DecidableEq κ] in
/-- A slot is flushed, or stays changed. -/
theorem answers_flushSlot (h : Wf ty t) (hi : (t.slots i).valid = true) :
    (answers took).wp (flushSlot ty now t i) (fun x _ => (x.1 = false → x.2 = t) ∧ Thins ty t x.2 ∧
      (x.2.slots i).valid = true ∧ (∀ j, j ≠ i → x.2.slots j = t.slots j) ∧ x.2.lru = t.lru ∧
      (x.1 = true → (t.slots i).dirty = false ∨ took (flushCall ty now (t.slots i)) true)) u := by
  rw [flushSlot]
  cases hd : (t.slots i).dirty with
  | false =>
    rw [if_pos (by rw [hi]; rfl)]
    exact ⟨fun _ => rfl, .refl h, hi, fun _ _ => rfl, rfl, fun _ => .inl rfl⟩
  | true =>
    rw [if_neg (by rw [hi]; decide)]
    refine StoreRel.wp_call fun r _ hr => ?_
    cases r with
    | false => exact ⟨fun _ => rfl, .refl h, hi, fun _ _ => rfl, rfl, by rintro ⟨⟩⟩
    | true =>
      have hthin : Thins ty t (t.set i (t.slots i).flushed) := thins_set h hi hi rfl
      refine ⟨by rintro ⟨⟩, hthin, ?_, fun j hj => set_slots_of_ne hj, rfl, fun _ => .inr hr⟩
      change ((t.set i (t.slots i).flushed).slots i).valid = true
      rw [set_slots_self]
      exact hi

omit [DecidableEq κ] in
/-- `allocate_l1_slot_` frees the last slot of the LRU list if there is no free one. -/
theorem answers_allocateSlot (h : Wf ty t) :
    (answers took).wp (allocateSlot ty now t) (fun x _ => Thins ty t x.2 ∧ Parts ty now took t x.2 ∧
      (x.1 = none → x.2 = t) ∧
      ∀ i, x.1 = some i → Free ty x.2 i ∧ (freeSlot ty t = none → t.lru.getLast? = some i)) u := by
  rw [allocateSlot]
  cases hf : freeSlot ty t with
  | some i =>
    refine ⟨.refl h, .refl t, by rintro ⟨⟩, fun j hj => ?_⟩
    obtain rfl := Option.some.inj hj
    exact ⟨free_of_freeSlot hf, by rintro ⟨⟩⟩
  | none =>
    dsimp only
    cases hlast : t.lru.getLast? with
    | none => exact ⟨.refl h, .refl t, fun _ => rfl, by rintro _ ⟨⟩⟩
    | some evict =>
      have hv : (t.slots evict).valid = true := (h.memLru evict).1 (List.mem_of_getLast? hlast)
      have hint : asInt16 evict = some evict := if_pos (h.lt evict hv).2
      have hfreed {t₁ : Tiered κ υ} (hv₁ : (t₁.slots evict).valid = true) (j : Nat)
          (hj : asInt16 evict = some j) : Free ty (removeSlot ty t₁ evict) j ∧
            ((none : Option Nat) = none → some evict = some j) := by
        obtain rfl := Option.some.inj (hint.symm.trans hj)
        refine ⟨⟨?_, h.lt evict hv⟩, fun _ => rfl⟩
        rw [Wf.removeSlot_free hv₁]
        rfl
      dsimp only
      split
      · next hexp =>
        refine StoreRel.wp_seq (answers_expireSlot took) fun t₁ _ ht₁ => ?_
        rw [ht₁]
        refine ⟨thins_removeSlot h hv, parts_removeSlot hv (.inl hexp), fun hno => ?_, hfreed hv⟩
        cases hint.symm.trans hno
      · refine StoreRel.wp_seq (answers_flushSlot h hv) fun x _ hx => ?_
        obtain ⟨ok, t₁⟩ := x
        obtain ⟨hfail, hthin, hv₁, hother, -, hok⟩ := hx
        cases ok with
        | false =>
          have ht : t₁ = t := hfail rfl
          rw [ht]
          exact ⟨.refl h, .refl t, fun _ => rfl, by rintro _ ⟨⟩⟩
        | true =>
          refine ⟨hthin.trans (thins_removeSlot hthin.wf hv₁), fun j hj => ?_, fun hno => ?_, hfreed hv₁⟩
          · by_cases hje : j = evict
            · exact .inr (hje ▸ .inr (hok rfl))
            · refine .inl ?_
              dsimp only at hv₁ hother
              rw [removeSlot_eq hv₁, set_slots_of_ne hje]
              exact hother j hje
          · cases hint.symm.trans hno

end rules

/-! ## Uses

The order of the keys is a list that a use changes like the LRU list: the key goes to the front. -/

omit [DecidableEq κ] [Inhabited κ] [Inhabited υ] in
/-- Touching a slot moves it to the front. -/
theorem touch_lru (t : Tiered κ υ) (i : Nat) : (t.touch i).lru = i :: t.lru.erase i := by
  rw [touch]
  split
  · next hhead =>
    obtain ⟨rest, hrest⟩ : ∃ rest, t.lru = i :: rest := ⟨_, (List.cons_head?_tail hhead).symm⟩
    rw [hrest, List.erase_cons_head]
  · rfl

omit [Inhabited κ] in
/-- Erasing a slot erases its key. -/
theorem map_erase_eq {f : Nat → κ} {l : List Nat} (hl : l.Nodup) (hi : i ∈ l)
    (hf : ∀ j ∈ l, f j = f i → j = i) : (l.erase i).map f = (l.map f).erase (f i) := by
  obtain ⟨x, y, rfl, herase⟩ := Threads.split_of_mem hl hi
  have hx : f i ∉ x.map f := by
    intro hmem
    obtain ⟨j, hj, hji⟩ := List.mem_map.1 hmem
    obtain rfl := hf j (List.mem_append_left _ hj) hji
    exact (List.nodup_append.1 hl).2.2 j hj j List.mem_cons_self rfl
  rw [herase, List.map_append, List.map_append, List.map_cons, List.erase_append_right _ hx,
    List.erase_cons_head]

/-- The LRU list has some of the keys, in their order. -/
structure Ordered (ty : Typed κ υ) (t : Tiered κ υ) (recent : List κ) : Prop where
  /-- The slots are well formed. -/
  wf : Wf ty t
  /-- No key is twice in the order. -/
  nodup : recent.Nodup
  /-- The LRU list has the cached keys in that order. -/
  keys : t.lruKeys.Sublist recent

variable {recent : List κ} {k : κ}

omit [DecidableEq κ] in
/-- Dropping slots keeps the order. -/
theorem Ordered.thin (h : Ordered ty t recent) (ht : Thins ty t t') : Ordered ty t' recent :=
  ⟨ht.wf, h.nodup, ht.keys.trans h.keys⟩

omit [Inhabited κ] in
/-- A use puts its key in front. -/
theorem nodup_use (h : recent.Nodup) : (k :: recent.erase k).Nodup :=
  List.nodup_cons.2 ⟨fun hk => (h.mem_erase_iff.1 hk).1 rfl, h.erase k⟩

/-- A use of a key that has a slot. -/
theorem Ordered.touch (h : Ordered ty t recent) (hi : (t.slots i).valid = true) :
    Ordered ty (t.touch i) ((t.slots i).key :: recent.erase (t.slots i).key) := by
  refine ⟨h.wf.touch hi, nodup_use h.nodup, ?_⟩
  have hmem := (h.wf.memLru i).2 hi
  have hkeys : (t.touch i).lruKeys = (t.slots i).key :: t.lruKeys.erase (t.slots i).key := by
    rw [lruKeys, touch_slots, touch_lru t i, List.map_cons, lruKeys]
    congr 1
    refine map_erase_eq h.wf.lruNodup hmem fun j hj he => ?_
    exact h.wf.inj j i ((h.wf.memLru j).1 hj) hi he
  rw [hkeys]
  exact (h.keys.erase _).cons_cons _

/-- A key without a slot is not on the list. -/
theorem Wf.not_mem_lruKeys (h : Wf ty t) (hk : cell ty t k = none) : k ∉ t.lruKeys := by
  rw [cell_eq_none, h.find_eq_none] at hk
  intro hmem
  obtain ⟨j, hj, hjk⟩ := List.mem_map.1 hmem
  exact hk j ((h.memLru j).1 hj) hjk

/-- A key that is in no slot is used without getting one. -/
theorem Ordered.use (h : Ordered ty t recent) (hk : cell ty t k = none) :
    Ordered ty t (k :: recent.erase k) := by
  refine ⟨h.wf, nodup_use h.nodup, ?_⟩
  have herase := h.keys.erase k
  rw [List.erase_of_not_mem (h.wf.not_mem_lruKeys hk)] at herase
  exact herase.cons k

/-- A use of a key that gets a slot. -/
theorem Ordered.link (h : Ordered ty t recent) (hi : Free ty t i) {s : Slot κ υ} (hv : s.valid = true)
    (hk : cell ty t s.key = none) :
    Ordered ty ((linkHash ty (t.set i s) i).linkLruFront i) (s.key :: recent.erase s.key) := by
  refine ⟨h.wf.link hi.valid hi.lt hv hk, nodup_use h.nodup, ?_⟩
  have hkeys : ((linkHash ty (t.set i s) i).linkLruFront i).lruKeys = s.key :: t.lruKeys := by
    change List.map (fun j => ((t.set i s).slots j).key) (i :: t.lru) = _
    rw [List.map_cons, set_slots_self, lruKeys]
    congr 1
    refine List.map_congr_left fun j hj => ?_
    have hji : j ≠ i := by
      rintro rfl
      cases ((h.wf.memLru j).1 hj).symm.trans hi.valid
    rw [set_slots_of_ne hji]
  rw [hkeys]
  have herase := h.keys.erase s.key
  rw [List.erase_of_not_mem (h.wf.not_mem_lruKeys hk)] at herase
  exact herase.cons_cons _

/-- What an operation on a key does that may evict: what stays in no slot may be evicted, and a slot that
is reused is the last one of the LRU list. -/
structure Evicts (ty : Typed κ υ) (now : UInt32) (took : (c : StoreCall) → c.Reply → Prop) (full : Prop)
    (k : κ) (t t' : Tiered κ υ) : Prop where
  /-- A key that has lost its slot had expired, or its entry has been taken. -/
  parted : ∀ j, (t.slots j).valid = true →
    (find ty t' (t.slots j).key).isSome ∨ Parted ty now took (t.slots j)
  /-- Without a free slot a new key gets the one that was used least recently. -/
  last : find ty t k = none → full → freeSlot ty t = none → ∀ i, find ty t' k = some i →
    t.lru.getLast? = some i

section operations

variable {now : UInt32} {took : (c : StoreCall) → c.Reply → Prop} {u : Unit} {full : Prop}

/-- The key gets no new slot. -/
theorem Evicts.of_keys (h : Wf ty t') (hp : ∀ j, (t.slots j).valid = true →
      ((t'.slots j).valid = true ∧ (t'.slots j).key = (t.slots j).key) ∨ Parted ty now took (t.slots j))
    (hk : find ty t' k = none ∨ find ty t k ≠ none) : Evicts ty now took full k t t' where
  parted j hv := by
    refine (hp j hv).imp_left fun hj => ?_
    rw [h.find_eq_some.2 hj]
    rfl
  last hno _ _ i hi := by
    rcases hk with hk | hk
    · cases hk.symm.trans hi
    · exact absurd hno hk

/-- Where the key itself gets no new slot. -/
theorem Evicts.of_parts (h : Wf ty t') (hp : Parts ty now took t t')
    (hk : find ty t' k = none ∨ find ty t k ≠ none) : Evicts ty now took full k t t' :=
  .of_keys h (fun j hv => (hp j hv).imp_left fun (he : t'.slots j = t.slots j) => by
    rw [he]
    exact ⟨hv, rfl⟩) hk

/-- Where nothing happens. -/
theorem Evicts.refl (h : Wf ty t) : Evicts ty now took full k t t :=
  .of_parts h (.refl t) (em _)

/-- The key gets a free slot. -/
theorem Evicts.of_link (h : Wf ty t') (hi : Free ty t' i) {s : Slot κ υ} (hv : s.valid = true)
    (hsk : s.key = k) (hk : cell ty t' k = none) (hp : Parts ty now took t t')
    (hlast : full → freeSlot ty t = none → t.lru.getLast? = some i) :
    Evicts ty now took full k t ((linkHash ty (t'.set i s) i).linkLruFront i) := by
  subst hsk
  have hwf := h.link hi.valid hi.lt hv hk
  have hself : ((linkHash ty (t'.set i s) i).linkLruFront i).slots i = s := set_slots_self ..
  constructor
  · intro j hvj
    refine (hp j hvj).imp_left fun he => ?_
    have hji : j ≠ i := by
      rintro rfl
      rw [← he] at hvj
      cases hvj.symm.trans hi.valid
    have hslot : ((linkHash ty (t'.set i s) i).linkLruFront i).slots j = t.slots j :=
      (set_slots_of_ne hji).trans he
    rw [hwf.find_eq_some.2 ⟨hslot ▸ hvj, congrArg Slot.key hslot⟩]
    rfl
  · intro _ hfull hno j hj
    obtain ⟨hvj, hkj⟩ := hwf.find_eq_some.1 hj
    rw [hwf.inj j i hvj (by rw [hself, hv]) (by rw [hkj, hself])]
    exact hlast hfull hno

/-- Nothing has expired. -/
def Live (now : UInt32) (t : Tiered κ υ) : Prop :=
  ∀ j, (t.slots j).valid = true → (t.slots j).isExpired now = false

/-- A put that succeeds is a use. -/
theorem answers_put (h : Ordered ty t recent) {v : υ} {ttl : UInt32} {priority : UInt8} :
    (answers took).wp (put ty now t k v ttl priority) (fun x _ =>
      Ordered ty x.2 (if x.1 = true then k :: recent.erase k else recent) ∧
      Evicts ty now took (Live now t) k t x.2) u := by
  refine StoreRel.wp_call fun r _ _ => ?_
  cases r with
  | false => exact ⟨h, .refl h.wf⟩
  | true =>
    refine StoreRel.wp_seq (answers_pruneExpired h.wf) fun t₁ _ h₁ => ?_
    obtain ⟨hthin, hparts, hlive⟩ := h₁
    have h₁ := h.thin hthin
    cases hf : find ty t₁ k with
    | some i =>
      obtain ⟨hv, hk⟩ := h₁.wf.find_eq_some.1 hf
      obtain ⟨s, hs⟩ : ∃ s : Slot κ υ, { t₁.slots i with
        value := v, expiresAt := MicroStore.expiresAt now ttl, priority := priority, dirty := true } = s :=
        ⟨_, rfl⟩
      have hsv : s.valid = true := hs ▸ hv
      have hsk : s.key = (t₁.slots i).key := hs ▸ rfl
      dsimp only
      rw [hs]
      have h₂ := h₁.thin (thins_set h₁.wf hv hsv hsk)
      have hself : (t₁.set i s).slots i = s := set_slots_self ..
      have htouch := h₂.touch (i := i) (by rw [hself, hsv])
      rw [hself, hsk, hk] at htouch
      refine ⟨htouch, .of_keys htouch.wf (fun j hvj => (hparts j hvj).imp_left fun he => ?_) (.inr ?_)⟩
      · rw [touch_slots, set_slots_valid (hsv.trans hv.symm), set_slots_key hsk, he]
        exact ⟨hvj, rfl⟩
      · intro hno
        cases (cell_eq_none.1 (hthin.cell_none h.wf (cell_eq_none.2 hno))).symm.trans hf
    | none =>
      refine StoreRel.wp_seq (answers_allocateSlot h₁.wf) fun x _ hx => ?_
      obtain ⟨slot, t₂⟩ := x
      obtain ⟨hthin₂, hparts₂, -, hfree⟩ := hx
      have hnone : cell ty t₂ k = none := hthin₂.cell_none h₁.wf (cell_eq_none.2 hf)
      cases slot with
      | none =>
        exact ⟨h₁.thin hthin₂, .of_parts hthin₂.wf (hparts.trans hparts₂) (.inl (cell_eq_none.1 hnone))⟩
      | some i =>
        obtain ⟨hi, hlast⟩ := hfree i rfl
        refine StoreRel.wp_call fun inL2 _ _ => ?_
        refine ⟨(h₁.thin hthin₂).link hi rfl hnone,
          .of_link hthin₂.wf hi rfl rfl hnone (hparts.trans hparts₂) fun hfull => ?_⟩
        obtain rfl := hlive hfull
        exact hlast

/-- A get that finds something is a use. -/
theorem answers_get (h : Ordered ty t recent) :
    (answers took).wp (get ty now t k) (fun x _ =>
      Ordered ty x.2 (if x.1.isSome = true then k :: recent.erase k else recent) ∧
      Evicts ty now took True k t x.2) u := by
  refine StoreRel.wp_call fun r _ _ => ?_
  cases r with
  | false => exact ⟨h, .refl h.wf⟩
  | true =>
    dsimp only
    cases hf : find ty t k with
    | some i =>
      obtain ⟨hv, hk⟩ := h.wf.find_eq_some.1 hf
      have hsome : find ty t k ≠ none := by
        rw [hf]
        exact nofun
      dsimp only
      split
      · next hexp =>
        refine StoreRel.wp_seq (answers_expireSlot took) fun t₁ _ ht₁ => ?_
        rw [ht₁]
        have hthin := thins_removeSlot h.wf hv
        exact ⟨h.thin hthin, .of_parts hthin.wf (parts_removeSlot hv (.inl hexp)) (.inr hsome)⟩
      · have htouch := h.touch hv
        rw [hk] at htouch
        refine ⟨htouch, .of_parts htouch.wf (fun j _ => .inl ?_) (.inr hsome)⟩
        rw [touch_slots]
    | none =>
      refine StoreRel.wp_call fun raw _ _ => ?_
      cases raw with
      | none => exact ⟨h, .refl h.wf⟩
      | some raw =>
        dsimp only
        cases ty.valueCodec.decode raw with
        | none => exact ⟨h, .refl h.wf⟩
        | some decoded =>
          refine StoreRel.wp_seq (answers_allocateSlot h.wf) fun x _ hx => ?_
          obtain ⟨slot, t₂⟩ := x
          obtain ⟨hthin₂, hparts₂, -, hfree⟩ := hx
          have hnone : cell ty t₂ k = none := hthin₂.cell_none h.wf (cell_eq_none.2 hf)
          cases slot with
          | none =>
            exact ⟨(h.thin hthin₂).use hnone,
              .of_parts hthin₂.wf hparts₂ (.inl (cell_eq_none.1 hnone))⟩
          | some i =>
            obtain ⟨hi, hlast⟩ := hfree i rfl
            exact ⟨(h.thin hthin₂).link hi rfl hnone,
              .of_link hthin₂.wf hi rfl rfl hnone hparts₂ fun _ => hlast⟩

/-- `exists` is none. -/
theorem thins_exists (h : Wf ty t) :
    (answers took).wp (Tiered.exists ty now t k) (fun x _ => Thins ty t x.2) u := by
  refine StoreRel.wp_call fun r _ _ => ?_
  cases r with
  | false => exact .refl h
  | true =>
    dsimp only
    cases hf : find ty t k with
    | some i =>
      dsimp only
      split
      · refine StoreRel.wp_seq (answers_expireSlot took) fun t₁ _ ht₁ => ?_
        rw [ht₁]
        exact thins_removeSlot h (h.find_eq_some.1 hf).1
      · exact .refl h
    | none => exact StoreRel.wp_call fun _ _ _ => .refl h

/-- Nor is a remove. -/
theorem thins_remove (h : Wf ty t) :
    (answers took).wp (remove ty t k) (fun x _ => Thins ty t x.2) u := by
  refine StoreRel.wp_call fun r _ _ => ?_
  have rest {t' : Tiered κ υ} (ht : Thins ty t t') (inL2 : Bool) : (answers took).wp
      (if inL2 then storeCall (.remove (ty.keyCodec.encode k)) >>= fun ok => pure (ok, t')
        else pure (true, t')) (fun x _ => Thins ty t x.2) u := by
    cases inL2 with
    | true => exact StoreRel.wp_call fun _ _ _ => ht
    | false => exact ht
  cases r with
  | false => exact .refl h
  | true =>
    dsimp only
    cases hf : find ty t k with
    | some i => exact rest (thins_removeSlot h (h.find_eq_some.1 hf).1) _
    | none => exact StoreRel.wp_call fun inL2 _ _ => rest (.refl h) inL2

omit [DecidableEq κ] in
/-- Nor is a `sync`. -/
theorem thins_syncLoop {n : Nat} {ok : Bool} (h : Wf ty t) :
    (answers took).wp (syncLoop ty now n ok t) (fun x _ => Thins ty t x.2) u := by
  induction n generalizing ok t u with
  | zero => exact .refl h
  | succ n ih =>
    rw [syncLoop]
    have next {t₁ : Tiered κ υ} (h₁ : Thins ty t t₁) (ok : Bool) :
        (answers took).wp (syncLoop ty now n ok t₁) (fun x _ => Thins ty t x.2) u :=
      Prog.wp_mono (ih h₁.wf) fun _ _ h' => h₁.trans h'
    split
    · exact next (.refl h) ok
    · next hno =>
      have hv : (t.slots n).valid = true := by
        cases hv : (t.slots n).valid with
        | true => rfl
        | false => exact absurd (by rw [hv]; rfl) hno
      have flush : (answers took).wp
          (flushSlot ty now t n >>= fun x => syncLoop ty now n (ok && x.1) x.2)
          (fun x _ => Thins ty t x.2) u :=
        StoreRel.wp_seq (answers_flushSlot h hv) fun x _ hx => next hx.2.1 (ok && x.1)
      split
      · refine StoreRel.wp_call fun found _ _ => ?_
        cases found with
        | true => exact flush
        | false => exact next (thins_removeSlot h hv) ok
      · exact flush

/-- Every operation keeps the order, and a put or a get evicts the last slot. -/
theorem answers_perform (h : Ordered ty t recent) (op : TieredOp κ υ) :
    (answers took).wp (perform ty now t op) (fun x _ =>
      Ordered ty x.2 (op.recent recent x.1)) u := by
  have pruned (h : Wf ty t) : (answers took).wp (pruneExpired ty now t) (fun t' _ => Thins ty t t') u :=
    Prog.wp_mono (answers_pruneExpired h) fun _ _ h' => h'.1
  cases op with
  | put => exact Prog.wp_mono (answers_put h) fun _ _ hx => hx.1
  | get => exact StoreRel.wp_seq (answers_get h) fun _ _ hx => hx.1
  | «exists» => exact Prog.wp_mono (thins_exists h.wf) fun _ _ hx => h.thin hx
  | remove => exact Prog.wp_mono (thins_remove h.wf) fun _ _ hx => h.thin hx
  | size =>
    refine StoreRel.wp_seq (Q := fun _ _ => True) ?_ fun _ _ _ => h
    refine StoreRel.wp_call fun r _ _ => ?_
    cases r with
    | false => exact trivial
    | true => exact StoreRel.wp_call fun _ _ _ => trivial
  | iterate =>
    refine StoreRel.wp_seq (Q := fun x _ => Thins ty t x.2) ?_ fun _ _ hx => h.thin hx
    refine StoreRel.wp_call fun r _ _ => ?_
    cases r with
    | false => exact .refl h.wf
    | true => exact StoreRel.wp_seq (pruned h.wf) fun _ _ hx => StoreRel.wp_call fun _ _ _ => hx
  | sync =>
    refine Prog.wp_mono (Q := fun x _ => Thins ty t x.2) ?_ fun _ _ hx => h.thin hx
    refine StoreRel.wp_call fun r _ _ => ?_
    cases r with
    | false => exact .refl h.wf
    | true =>
      exact StoreRel.wp_seq (pruned h.wf) fun _ _ hx =>
        Prog.wp_mono (thins_syncLoop hx.wf) fun _ _ h' => hx.trans h'
  | clear =>
    refine StoreRel.wp_seq (Q := fun t' _ => Thins ty t t') ?_ fun _ _ hx => h.thin hx
    refine StoreRel.wp_call fun r _ _ => ?_
    cases r with
    | false => exact .refl h.wf
    | true => exact StoreRel.wp_call fun _ _ _ => thins_new

end operations

end Tiered

/-! ## What the links say of it

Read off the links by following them, which ends because the links thread the slots. -/

namespace Linked

variable {κ υ σ : Type} [DecidableEq κ] [Inhabited κ] [Inhabited υ]

/-- The keys by their last use, of those that are in a slot. -/
def cached (ty : Typed κ υ) (l : Linked κ υ) (recent : List κ) : List κ :=
  recent.filter fun k => (find ty l k).isSome

/-- The LRU list goes through the valid slots in the order of the last uses. -/
def OrderedByUse (ty : Typed κ υ) (l : Linked κ υ) (recent : List κ) : Prop :=
  ∃ lru, Threads.Doubly l.nextLink l.prevLink (asLink l.lruHead) (asLink l.lruTail) lru ∧ lru.Nodup ∧
    (∀ i, i ∈ lru ↔ (l.slots i).valid = true) ∧
    (lru.map fun i => (l.slots i).key) = cached ty l recent

/-- Every slot is in use when the operation needs one, before which a put drops what has expired. -/
def Full (ty : Typed κ υ) (now : UInt32) (l : Linked κ υ) (op : TieredOp κ υ) : Prop :=
  freeSlot ty l = none ∧
    (op.prunes = true → ∀ i, (l.slots i).valid = true → (l.slots i).isExpired now = false)

/-- A new key in a full cache gets the slot of the key that has not been used for longest. -/
def ReusesLast (ty : Typed κ υ) (handle : (c : StoreCall) → σ → c.Reply × σ) (l : Linked κ υ) (s : σ)
    (recent : List κ) : Prop :=
  ∀ now op k i, op.inserts = some k → Full ty now l op → find ty l k = none →
    find ty (Prog.exec handle (perform ty now l op) s).1.2 k = some i →
    (cached ty l recent).getLast? = some (l.slots i).key

/-- An entry that a put or a get evicts has expired, or has not changed, or has been accepted by the store
below. -/
def EvictsSaved (ty : Typed κ υ) (handle : (c : StoreCall) → σ → c.Reply × σ) (l : Linked κ υ)
    (s : σ) : Prop :=
  ∀ now op k i, op.inserts = some k → (l.slots i).valid = true →
    find ty (Prog.exec handle (perform ty now l op) s).1.2 (l.slots i).key = none →
    (l.slots i).isExpired now = true ∨ (l.slots i).dirty = false ∨
      ∃ s', (Tiered.flushCall ty now (l.slots i).toSlot, s') ∈
          Prog.trace handle (perform ty now l op) s ∧
        (handle (Tiered.flushCall ty now (l.slots i).toSlot) s').1 = true

section

variable {ty : Typed κ υ} {l : Linked κ υ} {t : Tiered κ υ} {recent : List κ}

omit [Inhabited κ] in
/-- A part of a list is the list without the rest. -/
theorem filter_mem_of_sublist {x y : List κ} (h : x.Sublist y) (hy : y.Nodup) :
    (y.filter fun k => decide (k ∈ x)) = x := by
  induction h with
  | slnil => rfl
  | cons a h ih =>
    obtain ⟨ha, hy⟩ := List.nodup_cons.1 hy
    rw [List.filter_cons_of_neg, ih hy]
    exact fun hmem => ha (h.subset (of_decide_eq_true hmem))
  | cons_cons a h ih =>
    obtain ⟨ha, hy⟩ := List.nodup_cons.1 hy
    rw [List.filter_cons, if_pos (decide_eq_true List.mem_cons_self)]
    congr 1
    refine Eq.trans (List.filter_congr fun b hb => decide_eq_decide.2 ?_) (ih hy)
    have hne : b ≠ a := fun he => ha (he ▸ hb)
    rw [List.mem_cons, or_iff_right hne]

/-- The cached keys are those of the LRU list. -/
theorem Sim.cached_eq (h : Sim ty l t) (ho : Tiered.Ordered ty t recent) :
    cached ty l recent = t.lruKeys := by
  rw [cached, ← filter_mem_of_sublist ho.keys ho.nodup]
  refine List.filter_congr fun k _ => ?_
  rw [h.find_eq, ← Bool.coe_iff_coe, decide_eq_true_eq, Tiered.lruKeys, List.mem_map]
  constructor
  · intro hsome
    obtain ⟨i, hi⟩ := Option.isSome_iff_exists.1 hsome
    obtain ⟨hv, hk⟩ := h.wf.find_eq_some.1 hi
    exact ⟨i, (h.wf.memLru i).2 hv, hk⟩
  · rintro ⟨i, hi, hk⟩
    rw [h.wf.find_eq_some.2 ⟨(h.wf.memLru i).1 hi, hk⟩]
    rfl

/-- They are in the order of their last uses. -/
theorem Sim.orderedByUse (h : Sim ty l t) (ho : Tiered.Ordered ty t recent) :
    OrderedByUse ty l recent := by
  refine ⟨t.lru, h.threads.lru, h.wf.lruNodup, fun i => ?_, ?_⟩
  · rw [h.valid_eq]
    exact h.wf.memLru i
  · rw [h.cached_eq ho, Tiered.lruKeys]
    simp only [h.threads.slots]

variable (handle : (c : StoreCall) → σ → c.Reply × σ)

/-- One operation that may evict, at work. -/
theorem Sim.evicts (h : Sim ty l t) (ho : Tiered.Ordered ty t recent) (now : UInt32) (op : TieredOp κ υ)
    (s : σ) {k : κ} (hop : op.inserts = some k) :
    ∃ t', Sim ty (Prog.exec handle (perform ty now l op) s).1.2 t' ∧
      Tiered.Evicts ty now (fun c r => ∃ s', (c, s') ∈ Prog.trace handle (perform ty now l op) s ∧
        (handle c s').1 = r) (op.prunes = true → Tiered.Live now t) k t t' := by
  have hlock := lockstep_perform h now op
  refine ⟨_, (hlock.exec handle s).1.2, ?_⟩
  rw [hlock.trace handle s]
  have hwp : (Tiered.answers fun c r => ∃ s', (c, s') ∈ Prog.trace handle (Tiered.perform ty now t op) s ∧
      (handle c s').1 = r).wp (Tiered.perform ty now t op) (fun x _ => Tiered.Evicts ty now
        (fun c r => ∃ s', (c, s') ∈ Prog.trace handle (Tiered.perform ty now t op) s ∧
          (handle c s').1 = r) (op.prunes = true → Tiered.Live now t) k t x.2) () := by
    cases op with
    | put key =>
      obtain rfl := Option.some.inj hop
      refine Prog.wp_mono (Tiered.answers_put ho) fun x _ hx => ⟨hx.2.parted, fun hno hfull => ?_⟩
      exact hx.2.last hno (hfull rfl)
    | get key =>
      obtain rfl := Option.some.inj hop
      refine StoreRel.wp_seq (Tiered.answers_get ho) fun x _ hx => ⟨hx.2.parted, fun hno _ => ?_⟩
      exact hx.2.last hno trivial
    | «exists» | remove | size | iterate | sync | clear => cases hop
  exact Prog.wp_exec (π := fun _ : σ => ()) hwp fun x hx => ⟨x.2, hx, rfl⟩

/-- A new key gets the slot that was used least recently. -/
theorem Sim.reusesLast (h : Sim ty l t) (ho : Tiered.Ordered ty t recent) (s : σ) :
    ReusesLast ty handle l s recent := by
  intro now op k i hop hfull hno hi
  obtain ⟨t', hsim, hev⟩ := h.evicts handle ho now op s hop
  rw [hsim.find_eq] at hi
  rw [h.find_eq] at hno
  have hfree : Tiered.freeSlot ty t = none := by
    rw [← hfull.1, freeSlot, Tiered.freeSlot]
    simp only [h.threads.slots]
  have hlive (hp : op.prunes = true) : Tiered.Live now t := by
    intro j hj
    rw [← h.threads.slots j] at hj ⊢
    exact hfull.2 hp j hj
  rw [h.cached_eq ho, Tiered.lruKeys, List.getLast?_map, hev.last hno hlive hfree i hi, h.threads.slots]
  rfl

/-- What is evicted has been saved, or has expired. -/
theorem Sim.evictsSaved (h : Sim ty l t) (ho : Tiered.Ordered ty t recent) (s : σ) :
    EvictsSaved ty handle l s := by
  intro now op k i hop hv hgone
  obtain ⟨t', hsim, hev⟩ := h.evicts handle ho now op s hop
  rw [hsim.find_eq, h.threads.slots] at hgone
  rw [h.threads.slots] at hv ⊢
  rcases hev.parted i hv with hsome | hparted
  · rw [hgone] at hsome
    cases hsome
  · exact hparted

end

end Linked

/-- The order of the uses, all along a run. -/
theorem LinkedState.run_ordered {κ υ σ : Type} [DecidableEq κ] [Inhabited κ] [Inhabited υ]
    (ty : Typed κ υ) (handle : (c : StoreCall) → σ → c.Reply × σ) (s : σ)
    (ops : List (UInt32 × TieredOp κ υ)) :
    ∃ t, Linked.Sim ty (run ty handle s ops).links t ∧
      Tiered.Ordered ty t (run ty handle s ops).recent := by
  have steps {x : LinkedState κ υ σ} {t : Tiered κ υ} (h : Linked.Sim ty x.links t)
      (ho : Tiered.Ordered ty t x.recent) :
      ∃ t, Linked.Sim ty (ops.foldl (step ty handle) x).links t ∧
        Tiered.Ordered ty t (ops.foldl (step ty handle) x).recent := by
    induction ops generalizing x t with
    | nil => exact ⟨t, h, ho⟩
    | cons op ops ih =>
      obtain ⟨⟨hok, hsim⟩, -⟩ := (Linked.lockstep_perform h op.1 op.2).exec handle x.store
      have hwp : (Tiered.answers fun _ _ => True).wp (Tiered.perform ty op.1 t op.2)
          (fun y _ => Tiered.Ordered ty y.2 (op.2.recent x.recent y.1)) () :=
        Tiered.answers_perform ho op.2
      refine ih hsim ?_
      rw [step, hok]
      exact Prog.wp_exec (π := fun _ : σ => ()) hwp fun _ _ => trivial
  exact steps Linked.sim_new ⟨Tiered.wf_new, List.nodup_nil, .refl _⟩

/-- **What is evicted is what has not been used for longest.**  After any operations, over any store below,
the LRU list has the keys in the order of their last successful put or get; a new key in a full cache gets
the slot of the last one; and what is evicted has expired, or has not changed, or has been accepted by the
store below. -/
theorem evictions_least_recent {κ υ σ : Type} [DecidableEq κ] [Inhabited κ] [Inhabited υ]
    (ty : Typed κ υ) (handle : (c : StoreCall) → σ → c.Reply × σ) (s : σ)
    (ops : List (UInt32 × TieredOp κ υ)) :
    Linked.OrderedByUse ty (LinkedState.run ty handle s ops).links
        (LinkedState.run ty handle s ops).recent ∧
      Linked.ReusesLast ty handle (LinkedState.run ty handle s ops).links
        (LinkedState.run ty handle s ops).store (LinkedState.run ty handle s ops).recent ∧
      Linked.EvictsSaved ty handle (LinkedState.run ty handle s ops).links
        (LinkedState.run ty handle s ops).store := by
  obtain ⟨t, h, ho⟩ := LinkedState.run_ordered ty handle s ops
  exact ⟨h.orderedByUse ho, h.reusesLast handle ho _, h.evictsSaved handle ho _⟩


end MicroStore
