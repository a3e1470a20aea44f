import MicroStore.TieredCache

/-!
# What the operations of a tiered store do

The operations are programs over the store below.  Of that store the rules here know only which outcomes
of its calls are possible, a relation `R`, and which statement `J` about the slots and its state
survives what the operations do to them on the way (`Upkeep`).  Every operation then has one rule, in
terms of the slots as a map.

## Why a parameter

Before an operation looks at its key it prunes what has expired, and a put may evict and flush.  These
are changes of any slots, in an order that depends on the LRU list, and what one wants to know of them
differs: that the puts are still there, that the flags are right, that a failure changes nothing.  So
the rules are proved once, for any `J` that the six elementary steps preserve, and each of these
statements is an instance.

## What is here

* `StoreRel`, `StoreRel.wp` — the program logic of `Library/Prog.lean` at the store below.
* `Upkeep` — the six steps: three calls that only read, expiring a slot, flushing one, dropping a clean
  one.
* `wp_pruneExpired`, `wp_flushSlot`, `wp_allocateSlot` — the helpers.
* `wp_put`, `wp_get`, `wp_exists`, `wp_remove`, `wp_syncLoop` — the operations.
-/

set_option autoImplicit false

namespace MicroStore

/-- The possible outcomes of the calls on a store. -/
abbrev StoreRel (σ : Type) := (c : StoreCall) → σ → c.Reply → σ → Prop

/-- Weakest preconditions of programs over a store. -/
abbrev StoreRel.wp {σ α : Type} (R : StoreRel σ) (p : StoreM α) (Q : α → σ → Prop) (s : σ) : Prop :=
  Prog.wp R (fun _ _ => True) p Q s

namespace StoreRel

variable {σ α β : Type} {R : StoreRel σ}

/-- A call of the store below. -/
theorem wp_call {c : StoreCall} {f : c.Reply → StoreM β} {Q : β → σ → Prop} {s : σ}
    (h : ∀ r s', R c s r s' → R.wp (f r) Q s') : R.wp (storeCall c >>= f) Q s :=
  ⟨trivial, h⟩

/-- Sequencing. -/
theorem wp_seq {p : StoreM α} {f : α → StoreM β} {Q : α → σ → Prop} {Q' : β → σ → Prop} {s : σ}
    (h : R.wp p Q s) (hf : ∀ a s', Q a s' → R.wp (f a) Q' s') : R.wp (p >>= f) Q' s :=
  Prog.wp_seq h hf

end StoreRel

/-- The slot as a flush leaves it. -/
def Slot.flushed {κ υ : Type} (sl : Slot κ υ) : Slot κ υ := { sl with dirty := false, inL2 := true }

namespace Tiered

variable {κ υ σ : Type} [DecidableEq κ] [Inhabited κ] [Inhabited υ] {ty : Typed κ υ}

/-- The call that flushes a slot. -/
def flushCall (ty : Typed κ υ) (now : UInt32) (sl : Slot κ υ) : StoreCall :=
  .put (ty.keyCodec.encode sl.key) (ty.valueCodec.encode sl.value) (sl.remainingTtl now) now sl.priority

/-- The statement `J` about the slots and the store below survives the calls that only look, and the
removal, the flush and the eviction of a slot. -/
structure Upkeep (ty : Typed κ υ) (R : StoreRel σ) (now : UInt32)
    (J : (κ → Option (Slot κ υ)) → σ → Prop) : Prop where
  /-- The store says that it is valid. -/
  isValid : ∀ c s r s', J c s → R .isValid s r s' → r = true ∧ J c s'
  /-- Asking whether a key is there. -/
  «exists» : ∀ c s k r s', J c s → R (.exists (ty.keyCodec.encode k)) s r s' → J c s'
  /-- Asking for its value. -/
  get : ∀ c s k r s', J c s → R (.get (ty.keyCodec.encode k)) s r s' → J c s'
  /-- An expired slot is dropped, together with what the store below has of it. -/
  expire : ∀ c s k sl, J c s → c k = some sl → sl.isExpired now = true →
    (sl.inL2 = false → J (Function.update c k none) s) ∧
    (sl.inL2 = true → ∀ r s', R (.remove (ty.keyCodec.encode k)) s r s' →
      J (Function.update c k none) s')
  /-- A changed slot is flushed, and is clean if that succeeds. -/
  flush : ∀ c s k sl (r : Bool) s', J c s → c k = some sl → sl.key = k → sl.isExpired now = false →
    sl.dirty = true → R (flushCall ty now sl) s r s' →
    J (if r = true then Function.update c k (some sl.flushed) else c) s'
  /-- A clean slot is given up. -/
  drop : ∀ c s k sl, J c s → c k = some sl → sl.isExpired now = false → sl.dirty = false →
    J (Function.update c k none) s

section rules

variable {R : StoreRel σ} {now : UInt32} {J : (κ → Option (Slot κ υ)) → σ → Prop} {t : Tiered κ υ}
  {s : σ} {i : Nat}

/-! ## Expiry and eviction

What happens before or besides the operation itself.  The slots stay well formed and `J` is
preserved; of the slot that is allocated we know that it is free. -/

/-- An expired slot is dropped. -/
theorem wp_expireSlot (hU : Upkeep ty R now J) (h : Wf ty t) (hi : (t.slots i).valid = true)
    (hexp : (t.slots i).isExpired now = true) (hj : J (cell ty t) s) :
    R.wp (expireSlot ty t i) (fun t' s' => t' = removeSlot ty t i ∧ J (cell ty t') s') s := by
  obtain ⟨hno, hyes⟩ := hU.expire _ s _ _ hj (h.cell_of_valid hi) hexp
  rw [← h.cell_removeSlot hi] at hno hyes
  rw [expireSlot]
  cases hin : (t.slots i).inL2 with
  | true => exact StoreRel.wp_call fun r s' hr => ⟨rfl, hyes hin r s' hr⟩
  | false => exact ⟨rfl, hno hin⟩

/-- The slots below `n` that have not expired yet, and all others, are left alone. -/
theorem wp_pruneLoop (hU : Upkeep ty R now J) {n : Nat} (h : Wf ty t) (hj : J (cell ty t) s)
    (hbelow : ∀ j < i, (t.slots j).valid = true → (t.slots j).isExpired now = false) :
    R.wp (pruneLoop ty now n i t) (fun t' s' => Wf ty t' ∧ J (cell ty t') s' ∧
      (∀ j < i + n, (t'.slots j).valid = true → (t'.slots j).isExpired now = false) ∧
      ((∀ j, (t.slots j).valid = true → (t.slots j).isExpired now = false) → t' = t) ∧
      ∀ j, (t'.slots j).valid = true → t'.slots j = t.slots j) s := by
  induction n generalizing i t s with
  | zero => exact ⟨h, hj, hbelow, fun _ => rfl, fun _ _ => rfl⟩
  | succ n ih =>
    rw [pruneLoop]
    by_cases hexp : (t.slots i).valid = true ∧ (t.slots i).isExpired now = true
    · rw [if_pos (by rw [hexp.1, hexp.2]; rfl)]
      refine StoreRel.wp_seq (wp_expireSlot hU h hexp.1 hexp.2 hj) fun t₁ s₁ ⟨ht₁, hj₁⟩ => ?_
      subst ht₁
      have hslots (j : Nat) (hj : j ≠ i) : (removeSlot ty t i).slots j = t.slots j := by
        rw [removeSlot_eq hexp.1]
        exact set_slots_of_ne hj
      refine Prog.wp_mono (ih (h.removeSlot hexp.1) hj₁ fun j hj hv => ?_)
        fun t' s' ⟨h', hj', hlow, _, hsub⟩ => ⟨h', hj', fun j hj => hlow j (by omega), fun hno => ?_,
          fun j hv => ?_⟩
      · by_cases hji : j = i
        · rw [hji, Wf.removeSlot_free hexp.1] at hv
          cases hv
        · rw [hslots j hji] at hv ⊢
          exact hbelow j (by omega) hv
      · cases (hno i hexp.1).symm.trans hexp.2
      · have hj := hsub j hv
        by_cases hji : j = i
        · rw [hj, hji, Wf.removeSlot_free hexp.1] at hv
          cases hv
        · rw [hj, hslots j hji]
    · rw [if_neg (by rwa [Bool.and_eq_true])]
      change R.wp (pruneLoop ty now n (i + 1) t) _ s
      refine Prog.wp_mono (ih h hj fun j hj hv => ?_)
        fun t' s' ⟨h', hj', hlow, hid, hsub⟩ => ⟨h', hj', fun j hj => hlow j (by omega), hid, hsub⟩
      by_cases hji : j = i
      · rw [hji] at hv ⊢
        rw [← Bool.not_eq_true]
        exact fun he => hexp ⟨hv, he⟩
      · exact hbelow j (by omega) hv

/-- `prune_expired_l1_` leaves the slots that have not expired. -/
theorem wp_pruneExpired (hU : Upkeep ty R now J) (h : Wf ty t) (hj : J (cell ty t) s) :
    R.wp (pruneExpired ty now t) (fun t' s' => Wf ty t' ∧ J (cell ty t') s' ∧
      (∀ j, (t'.slots j).valid = true → (t'.slots j).isExpired now = false) ∧
      ((∀ j, (t.slots j).valid = true → (t.slots j).isExpired now = false) → t' = t) ∧
      ∀ j, (t'.slots j).valid = true → t'.slots j = t.slots j) s := by
  rw [pruneExpired]
  refine Prog.wp_mono (wp_pruneLoop hU h hj fun j hj => absurd hj (Nat.not_lt_zero j))
    fun t' s' ⟨h', hj', hlow, hid, hsub⟩ => ⟨h', hj', fun j hv => hlow j ?_ hv, hid, hsub⟩
  have := (h'.lt j hv).1
  omega

/-- `flush_l1_slot_` of a slot that has not expired. -/
theorem wp_flushSlot (hU : Upkeep ty R now J) (h : Wf ty t) (hi : (t.slots i).valid = true)
    (hexp : (t.slots i).isExpired now = false) (hj : J (cell ty t) s) :
    R.wp (flushSlot ty now t i) (fun x s' => Wf ty x.2 ∧ J (cell ty x.2) s' ∧
      (x.1 = true → x.2.slots i
        = if (t.slots i).dirty = true then (t.slots i).flushed else t.slots i) ∧
      (x.1 = false → x.2 = t ∧ (t.slots i).dirty = true ∧ R (flushCall ty now (t.slots i)) s false s') ∧
      ∀ j, j ≠ i → x.2.slots j = t.slots j) s := by
  rw [flushSlot]
  by_cases hd : (t.slots i).dirty = true
  · rw [if_neg (by rw [hi, hd]; decide)]
    refine StoreRel.wp_call fun r s' hr => ?_
    have hstep := hU.flush _ s _ _ r s' hj (h.cell_of_valid hi) rfl hexp hd hr
    cases r with
    | false => exact ⟨h, hstep, nofun, fun _ => ⟨rfl, hd, hr⟩, fun _ _ => rfl⟩
    | true =>
      rw [if_pos rfl] at hstep
      have hset : cell ty (t.set i (t.slots i).flushed) = _ := h.cell_set hi hi rfl
      rw [← hset] at hstep
      refine ⟨h.set hi hi rfl, hstep, fun _ => ?_, nofun, fun j hj => set_slots_of_ne hj⟩
      rw [if_pos hd]
      exact set_slots_self ..
  · rw [if_pos (by rw [hi, (Bool.not_eq_true _).mp hd]; decide)]
    exact ⟨h, hj, fun _ => (if_neg hd).symm, nofun, fun _ _ => rfl⟩

/-- The last slot of the LRU list cannot be flushed. -/
def Refused (ty : Typed κ υ) (R : StoreRel σ) (now : UInt32)
    (J : (κ → Option (Slot κ υ)) → σ → Prop) (t : Tiered κ υ) : Prop :=
  freeSlot ty t = none ∧ ∀ i, t.lru.getLast? = some i → (t.slots i).isExpired now = false ∧
    (t.slots i).dirty = true ∧ ∃ s s', J (cell ty t) s ∧ R (flushCall ty now (t.slots i)) s false s'

/-- `allocate_l1_slot_` frees a slot, of an entry that is in the store below or has expired. -/
theorem wp_allocateSlot (hU : Upkeep ty R now J) (h : Wf ty t) (hj : J (cell ty t) s) :
    R.wp (allocateSlot ty now t) (fun x s' => Wf ty x.2 ∧ J (cell ty x.2) s' ∧
      (∀ k, cell ty t k = none → cell ty x.2 k = none) ∧
      (∀ i, x.1 = some i → Free ty x.2 i ∧ x.2.slots i = default) ∧
      (x.1 = none → x.2 = t ∧ Refused ty R now J t)) s := by
  rw [allocateSlot]
  cases hf : freeSlot ty t with
  | some i =>
    have hfree := free_of_freeSlot hf
    refine ⟨h, hj, fun _ h => h, fun j hj => ?_, nofun⟩
    obtain rfl := Option.some.inj hj
    exact ⟨hfree, h.free _ hfree.valid⟩
  | none =>
    dsimp only
    cases hlast : t.lru.getLast? with
    | none =>
      refine ⟨h, hj, fun _ h => h, nofun, fun _ => ⟨rfl, hf, fun i hi => ?_⟩⟩
      cases hlast.symm.trans hi
    | some evict =>
      have hv : (t.slots evict).valid = true := (h.memLru evict).1 (List.mem_of_getLast? hlast)
      have hint : asInt16 evict = some evict := if_pos (h.lt evict hv).2
      have hremoved {t₁ : Tiered κ υ} (h₁ : Wf ty t₁) (hv₁ : (t₁.slots evict).valid = true) :
          Free ty (removeSlot ty t₁ evict) evict ∧ (removeSlot ty t₁ evict).slots evict = default := by
        rw [Wf.removeSlot_free hv₁]
        refine ⟨⟨?_, h.lt evict hv⟩, rfl⟩
        rw [Wf.removeSlot_free hv₁]
        rfl
      have hnone {k : κ} {t₁ : Tiered κ υ} (h₁ : Wf ty t₁) (hv₁ : (t₁.slots evict).valid = true)
          (hk : cell ty t₁ k = none) : cell ty (removeSlot ty t₁ evict) k = none := by
        rw [h₁.cell_removeSlot hv₁]
        by_cases he : k = (t₁.slots evict).key
        · rw [he, Function.update_self]
        · rwa [Function.update_of_ne he]
      dsimp only
      cases hexp : (t.slots evict).isExpired now with
      | true =>
        rw [if_pos rfl]
        refine StoreRel.wp_seq (wp_expireSlot hU h hv hexp hj) fun t₁ s₁ ⟨ht₁, hj₁⟩ => ?_
        subst ht₁
        rw [hint]
        refine ⟨h.removeSlot hv, hj₁, fun k hk => hnone h hv hk, fun i hi => ?_, nofun⟩
        obtain rfl := Option.some.inj hi
        exact hremoved h hv
      | false =>
        rw [if_neg Bool.false_ne_true]
        refine StoreRel.wp_seq (wp_flushSlot hU h hv hexp hj)
          fun x s₁ ⟨h₁, hj₁, hok, hfail, hother⟩ => ?_
        obtain ⟨ok, t₁⟩ := x
        cases ok with
        | false =>
          obtain ⟨ht₁, hd, hr⟩ := hfail rfl
          dsimp only at ht₁ hj₁
          subst ht₁
          refine ⟨h, hj₁, fun _ h => h, nofun, fun _ => ⟨rfl, hf, fun i hi => ?_⟩⟩
          obtain rfl := Option.some.inj (hlast.symm.trans hi)
          exact ⟨hexp, hd, _, _, hj, hr⟩
        | true =>
          have hslot := hok rfl
          dsimp only at hslot h₁ hj₁ hother
          have hkept : (t₁.slots evict).valid = true ∧ (t₁.slots evict).key = (t.slots evict).key ∧
              (t₁.slots evict).isExpired now = false ∧ (t₁.slots evict).dirty = false := by
            rw [hslot]
            split
            · exact ⟨hv, rfl, hexp, rfl⟩
            · next hd => exact ⟨hv, rfl, hexp, Bool.not_eq_true _ ▸ hd⟩
          have hcell : ∀ k, cell ty t k = none → cell ty t₁ k = none := by
            intro k hk
            rw [cell_eq_none, h₁.find_eq_none]
            rw [cell_eq_none, h.find_eq_none] at hk
            intro j hvj
            by_cases hji : j = evict
            · rw [hji, hkept.2.1]
              exact hk evict hv
            · rw [hother j hji] at hvj ⊢
              exact hk j hvj
          have hdrop := hU.drop _ s₁ _ _ hj₁ (h₁.cell_of_valid hkept.1) hkept.2.2.1 hkept.2.2.2
          rw [← h₁.cell_removeSlot hkept.1] at hdrop
          refine ⟨h₁.removeSlot hkept.1, hdrop, fun k hk => hnone h₁ hkept.1 (hcell k hk),
            fun i hi => ?_, fun hno => ?_⟩
          · rw [hint] at hi
            obtain rfl := Option.some.inj hi
            exact hremoved h₁ hkept.1
          · rw [hint] at hno
            cases hno

/-! ## Operations

The rules leave to the user what happens at the key of the operation, as a change of the map at that
key. -/

/-- The slot a put writes. -/
def putSlot (now : UInt32) (k : κ) (v : υ) (ttl : UInt32) (priority : UInt8) (inL2 : Bool) : Slot κ υ :=
  ⟨k, v, MicroStore.expiresAt now ttl, priority, true, true, inL2⟩

/-- `put`. -/
theorem wp_put (hU : Upkeep ty R now J) (h : Wf ty t) (hj : J (cell ty t) s) {k : κ} {v : υ}
    {ttl : UInt32} {priority : UInt8} {Q : Bool × Tiered κ υ → σ → Prop}
    (hhit : ∀ c s' sl t', J c s' → c k = some sl → Wf ty t' →
      cell ty t' = Function.update c k (some (putSlot now k v ttl priority sl.inL2)) → Q (true, t') s')
    (hmiss : ∀ c s₁ inL2 s' t', J c s₁ → c k = none → R (.exists (ty.keyCodec.encode k)) s₁ inL2 s' →
      J c s' → Wf ty t' → cell ty t' = Function.update c k (some (putSlot now k v ttl priority inL2)) →
      Q (true, t') s')
    (hfail : ∀ s', J (cell ty t) s' → find ty t k = none →
      (∀ j, (t.slots j).valid = true → (t.slots j).isExpired now = false) →
      Refused ty R now J t → Q (false, t) s') :
    R.wp (put ty now t k v ttl priority) Q s := by
  refine StoreRel.wp_call fun r s₀ hr => ?_
  obtain ⟨rfl, hj₀⟩ := hU.isValid _ s r s₀ hj hr
  refine StoreRel.wp_seq (wp_pruneExpired hU h hj₀) fun t₁ s₁ ⟨h₁, hj₁, hlive, hid, hsame⟩ => ?_
  cases hfind : find ty t₁ k with
  | some i =>
    obtain ⟨hv, hk⟩ := h₁.find_eq_some.1 hfind
    have hslot : ({ t₁.slots i with
        value := v, expiresAt := MicroStore.expiresAt now ttl, priority := priority, dirty := true } :
        Slot κ υ) = putSlot now k v ttl priority (t₁.slots i).inL2 := by
      rw [putSlot, ← hk]
      exact congrArg (fun b => (⟨(t₁.slots i).key, v, _, priority, b, true, _⟩ : Slot κ υ)) hv
    have hset : Wf ty (t₁.set i (putSlot now k v ttl priority (t₁.slots i).inL2)) :=
      h₁.set hv rfl hk.symm
    have hq := hhit (cell ty t₁) s₁ _ _ hj₁ (cell_of_find hfind)
      (hset.touch (by rw [set_slots_self]; rfl)) (by rw [cell_touch, h₁.cell_set hv rfl hk.symm, hk])
    rw [← hslot] at hq
    exact hq
  | none =>
    refine StoreRel.wp_seq (wp_allocateSlot hU h₁ hj₁)
      fun x s₂ ⟨h₂, hj₂, hnone, hfree, hrefused⟩ => ?_
    obtain ⟨slot, t₂⟩ := x
    cases slot with
    | none =>
      obtain ⟨ht, href⟩ := hrefused rfl
      dsimp only at ht hj₂
      subst ht
      -- there is no free slot, so nothing had expired
      have hnone (j : Nat) (hv : (t.slots j).valid = true) : (t.slots j).isExpired now = false := by
        have hv' := valid_of_freeSlot_none href.1 (h.lt j hv).1 (h.lt j hv).2
        rw [← hsame j hv']
        exact hlive j hv'
      obtain rfl := hid hnone
      exact hfail s₂ hj₂ hfind hnone href
    | some i =>
      obtain ⟨⟨hv, hlt⟩, -⟩ := hfree i rfl
      refine StoreRel.wp_call fun inL2 s₃ hr₃ => ?_
      have hk : cell ty t₂ k = none := hnone k (cell_eq_none.2 hfind)
      exact hmiss (cell ty t₂) s₂ inL2 s₃ _ hj₂ hk hr₃ (hU.exists _ _ _ _ _ hj₂ hr₃)
        (h₂.link hv hlt rfl hk) (h₂.cell_link hv hlt rfl hk)

/-- The slot a promotion makes. -/
def promoted (k : κ) (v : υ) : Slot κ υ := ⟨k, v, 0, 0, true, false, true⟩

/-- `get`. -/
theorem wp_get (hU : Upkeep ty R now J) (h : Wf ty t) (hj : J (cell ty t) s) {k : κ}
    {Q : Option υ × Tiered κ υ → σ → Prop}
    (hexpired : ∀ s' sl t', J (cell ty t') s' → cell ty t k = some sl → sl.isExpired now = true →
      Wf ty t' → Q (none, t') s')
    (hhit : ∀ s' sl t', J (cell ty t') s' → cell ty t k = some sl → sl.isExpired now = false →
      Wf ty t' → Q (some sl.value, t') s')
    (hnone : ∀ s₁ s', J (cell ty t) s₁ → J (cell ty t) s' → cell ty t k = none →
      R (.get (ty.keyCodec.encode k)) s₁ none s' → Q (none, t) s')
    (hbad : ∀ s₁ raw s', J (cell ty t) s₁ → J (cell ty t) s' → cell ty t k = none →
      R (.get (ty.keyCodec.encode k)) s₁ (some raw) s' → ty.valueCodec.decode raw = none → Q (none, t) s')
    (hfound : ∀ s₁ raw s₂ v, J (cell ty t) s₁ → cell ty t k = none →
      R (.get (ty.keyCodec.encode k)) s₁ (some raw) s₂ → ty.valueCodec.decode raw = some v →
      ∀ c t' s', J c s' → c k = none → Wf ty t' →
      (cell ty t' = c ∨ cell ty t' = Function.update c k (some (promoted k v))) → Q (some v, t') s') :
    R.wp (get ty now t k) Q s := by
  refine StoreRel.wp_call fun r s₀ hr => ?_
  obtain ⟨rfl, hj₀⟩ := hU.isValid _ s r s₀ hj hr
  dsimp only
  cases hfind : find ty t k with
  | some i =>
    obtain ⟨hv, hk⟩ := h.find_eq_some.1 hfind
    have hcell : cell ty t k = some (t.slots i) := cell_of_find hfind
    dsimp only
    cases hexp : (t.slots i).isExpired now with
    | true =>
      rw [if_pos rfl]
      refine StoreRel.wp_seq (wp_expireSlot hU h hv hexp hj₀) fun t₁ s₁ ⟨ht₁, hj₁⟩ => ?_
      exact hexpired s₁ _ t₁ hj₁ hcell hexp (ht₁ ▸ h.removeSlot hv)
    | false =>
      rw [if_neg Bool.false_ne_true]
      refine hhit s₀ _ _ ?_ hcell hexp (h.touch hv)
      rwa [cell_touch]
  | none =>
    have hcell : cell ty t k = none := cell_eq_none.2 hfind
    refine StoreRel.wp_call fun raw s₁ hr₁ => ?_
    have hj₁ := hU.get _ _ _ _ _ hj₀ hr₁
    cases raw with
    | none => exact hnone s₀ s₁ hj₀ hj₁ hcell hr₁
    | some raw =>
      dsimp only
      cases hdec : ty.valueCodec.decode raw with
      | none => exact hbad s₀ raw s₁ hj₀ hj₁ hcell hr₁ hdec
      | some v =>
        refine StoreRel.wp_seq (wp_allocateSlot hU h hj₁)
          fun x s₂ ⟨h₂, hj₂, hkeep, hfree, _⟩ => ?_
        obtain ⟨slot, t₂⟩ := x
        have hk : cell ty t₂ k = none := hkeep k hcell
        cases slot with
        | none => exact hfound s₀ raw s₁ v hj₀ hcell hr₁ hdec _ t₂ s₂ hj₂ hk h₂ (.inl rfl)
        | some i =>
          obtain ⟨⟨hv, hlt⟩, hdef⟩ := hfree i rfl
          dsimp only at hdef hv
          have hs : ({ t₂.slots i with
              key := k, value := v, dirty := false, valid := true, inL2 := true } : Slot κ υ)
              = promoted k v := by
            rw [hdef]
            rfl
          refine hfound s₀ raw s₁ v hj₀ hcell hr₁ hdec _ _ s₂ hj₂ hk ?_ (.inr ?_)
          · rw [hs]
            exact h₂.link hv hlt rfl hk
          · rw [hs]
            exact h₂.cell_link hv hlt rfl hk

/-- `exists`. -/
theorem wp_exists (hU : Upkeep ty R now J) (h : Wf ty t) (hj : J (cell ty t) s) {k : κ}
    {Q : Bool × Tiered κ υ → σ → Prop}
    (hexpired : ∀ s' sl t', J (cell ty t') s' → cell ty t k = some sl → sl.isExpired now = true →
      Wf ty t' → Q (false, t') s')
    (hhit : ∀ s' sl, J (cell ty t) s' → cell ty t k = some sl → sl.isExpired now = false →
      Q (true, t) s')
    (hmiss : ∀ s₁ r s', J (cell ty t) s₁ → J (cell ty t) s' → cell ty t k = none →
      R (.exists (ty.keyCodec.encode k)) s₁ r s' → Q (r, t) s') :
    R.wp (Tiered.exists ty now t k) Q s := by
  refine StoreRel.wp_call fun r s₀ hr => ?_
  obtain ⟨rfl, hj₀⟩ := hU.isValid _ s r s₀ hj hr
  dsimp only
  cases hfind : find ty t k with
  | some i =>
    obtain ⟨hv, hk⟩ := h.find_eq_some.1 hfind
    have hcell : cell ty t k = some (t.slots i) := cell_of_find hfind
    dsimp only
    cases hexp : (t.slots i).isExpired now with
    | true =>
      rw [if_pos rfl]
      refine StoreRel.wp_seq (wp_expireSlot hU h hv hexp hj₀) fun t₁ s₁ ⟨ht₁, hj₁⟩ => ?_
      exact hexpired s₁ _ t₁ hj₁ hcell hexp (ht₁ ▸ h.removeSlot hv)
    | false =>
      rw [if_neg Bool.false_ne_true]
      exact hhit s₀ _ hj₀ hcell hexp
  | none =>
    refine StoreRel.wp_call fun r s₁ hr₁ => ?_
    exact hmiss s₀ r s₁ hj₀ (hU.exists _ _ _ _ _ hj₀ hr₁) (cell_eq_none.2 hfind) hr₁

/-- `remove`. -/
theorem wp_remove (hU : Upkeep ty R now J) (h : Wf ty t) (hj : J (cell ty t) s) {k : κ}
    {Q : Bool × Tiered κ υ → σ → Prop}
    (hsolo : ∀ s' sl t', J (cell ty t) s' → cell ty t k = some sl → sl.inL2 = false → Wf ty t' →
      cell ty t' = Function.update (cell ty t) k none → Q (true, t') s')
    (hboth : ∀ s₁ r s' sl t', J (cell ty t) s₁ → cell ty t k = some sl → sl.inL2 = true → Wf ty t' →
      cell ty t' = Function.update (cell ty t) k none → R (.remove (ty.keyCodec.encode k)) s₁ r s' →
      Q (r, t') s')
    (hgone : ∀ s₁ s', J (cell ty t) s₁ → J (cell ty t) s' → cell ty t k = none →
      R (.exists (ty.keyCodec.encode k)) s₁ false s' → Q (true, t) s')
    (hbelow : ∀ s₁ r s', J (cell ty t) s₁ → cell ty t k = none →
      R (.remove (ty.keyCodec.encode k)) s₁ r s' → Q (r, t) s') :
    R.wp (remove ty t k) Q s := by
  refine StoreRel.wp_call fun r s₀ hr => ?_
  obtain ⟨rfl, hj₀⟩ := hU.isValid _ s r s₀ hj hr
  dsimp only
  cases hfind : find ty t k with
  | some i =>
    obtain ⟨hv, hk⟩ := h.find_eq_some.1 hfind
    have hcell : cell ty t k = some (t.slots i) := cell_of_find hfind
    have hupd := h.cell_removeSlot hv
    rw [hk] at hupd
    refine Prog.wp_bind.2 ?_
    change R.wp (if (t.slots i).inL2 = true then _ else _) Q s₀
    cases hin : (t.slots i).inL2 with
    | true =>
      rw [if_pos rfl]
      exact StoreRel.wp_call fun r s₁ hr₁ =>
        hboth s₀ r s₁ _ _ hj₀ hcell hin (h.removeSlot hv) hupd hr₁
    | false =>
      rw [if_neg Bool.false_ne_true]
      exact hsolo s₀ _ _ hj₀ hcell hin (h.removeSlot hv) hupd
  | none =>
    have hcell : cell ty t k = none := cell_eq_none.2 hfind
    refine StoreRel.wp_call fun inL2 s₁ hr₁ => ?_
    have hj₁ := hU.exists _ _ _ _ _ hj₀ hr₁
    cases inL2 with
    | false => exact hgone s₀ s₁ hj₀ hj₁ hcell hr₁
    | true => exact StoreRel.wp_call fun r s₂ hr₂ => hbelow s₁ r s₂ hj₁ hcell hr₂

/-- The loop of `sync`. -/
theorem wp_syncLoop (hU : Upkeep ty R now J)
    (hdrop : ∀ c s k sl s', J c s → c k = some sl → sl.isExpired now = false → sl.dirty = true →
      sl.inL2 = true → R (.exists (ty.keyCodec.encode k)) s false s' → J (Function.update c k none) s')
    {n : Nat} {ok : Bool} (h : Wf ty t) (hj : J (cell ty t) s)
    (hlive : ∀ j, (t.slots j).valid = true → (t.slots j).isExpired now = false) :
    R.wp (syncLoop ty now n ok t) (fun x s' => Wf ty x.2 ∧ J (cell ty x.2) s' ∧
      (∀ j, n ≤ j → x.2.slots j = t.slots j) ∧
      (x.1 = true → ok = true ∧ ∀ j < n, (x.2.slots j).valid = true → (x.2.slots j).dirty = false)) s := by
  induction n generalizing ok t s with
  | zero => exact ⟨h, hj, fun _ _ => rfl, fun hok => ⟨hok, fun j hj => absurd hj (Nat.not_lt_zero j)⟩⟩
  | succ n ih =>
    rw [syncLoop]
    -- one slot is dealt with, the loop goes on below it
    have hnext {ok₁ : Bool} {t₁ : Tiered κ υ} {s₁ : σ} (h₁ : Wf ty t₁) (hj₁ : J (cell ty t₁) s₁)
        (hother : ∀ j, j ≠ n → t₁.slots j = t.slots j)
        (hlive₁ : (t₁.slots n).valid = true → (t₁.slots n).isExpired now = false)
        (hclean : ok₁ = true → ok = true ∧ ((t₁.slots n).valid = true → (t₁.slots n).dirty = false)) :
        R.wp (syncLoop ty now n ok₁ t₁) (fun x s' => Wf ty x.2 ∧ J (cell ty x.2) s' ∧
          (∀ j, n + 1 ≤ j → x.2.slots j = t.slots j) ∧
          (x.1 = true → ok = true ∧
            ∀ j < n + 1, (x.2.slots j).valid = true → (x.2.slots j).dirty = false)) s₁ := by
      refine Prog.wp_mono (ih h₁ hj₁ fun j hv => ?_) fun x s' hx => ?_
      · by_cases hjn : j = n
        · rw [hjn] at hv ⊢
          exact hlive₁ hv
        · rw [hother j hjn] at hv ⊢
          exact hlive j hv
      · obtain ⟨h', hj', hrest, hok⟩ := hx
        refine ⟨h', hj', fun j hj => (hrest j (by omega)).trans (hother j (by omega)), fun hx => ?_⟩
        obtain ⟨hok₁, hlow⟩ := hok hx
        refine ⟨(hclean hok₁).1, fun j hj hv => ?_⟩
        by_cases hjn : j = n
        · rw [hjn, hrest n le_rfl] at hv ⊢
          exact (hclean hok₁).2 hv
        · exact hlow j (by omega) hv
    by_cases hskip : (t.slots n).valid = true ∧ (t.slots n).dirty = true
    · obtain ⟨hv, hd⟩ := hskip
      rw [hv, hd]
      have hexp := hlive n hv
      have hcell := h.cell_of_valid hv
      have hflush (s₁ : σ) (hj₁ : J (cell ty t) s₁) : R.wp
          (flushSlot ty now t n >>= fun x => syncLoop ty now n (ok && x.1) x.2) (fun x s' => Wf ty x.2 ∧ J (cell ty x.2) s' ∧
          (∀ j, n + 1 ≤ j → x.2.slots j = t.slots j) ∧
          (x.1 = true → ok = true ∧
            ∀ j < n + 1, (x.2.slots j).valid = true → (x.2.slots j).dirty = false)) s₁ := by
        refine StoreRel.wp_seq (wp_flushSlot hU h hv hexp hj₁) ?_
        rintro ⟨flushed, t₂⟩ s₂ ⟨h₂, hj₂, hok, hfail, hother⟩
        cases flushed with
        | false =>
          obtain ⟨ht, -, -⟩ := hfail rfl
          dsimp only at ht hj₂
          subst ht
          exact hnext h hj₂ (fun _ _ => rfl) (fun _ => hexp) fun hno => by
            rw [Bool.and_false] at hno
            cases hno
        | true =>
          have hslot := hok rfl
          rw [if_pos hd] at hslot
          refine hnext h₂ hj₂ hother (fun _ => ?_) fun hok => ⟨?_, fun _ => ?_⟩
          · rw [hslot]
            exact hexp
          · rwa [Bool.and_true] at hok
          · rw [hslot]
            rfl
      cases hin : (t.slots n).inL2 with
      | false => exact hflush s hj
      | true =>
        refine StoreRel.wp_call fun r s₁ hr => ?_
        have hj₁ := hU.exists _ _ _ _ _ hj hr
        cases r with
        | true => exact hflush s₁ hj₁
        | false =>
          have hgone := hdrop _ s _ _ s₁ hj hcell hexp hd hin hr
          rw [← h.cell_removeSlot hv] at hgone
          refine hnext (h.removeSlot hv) hgone (fun j hj => ?_) (fun hv' => ?_) fun hok => ⟨hok, fun hv' => ?_⟩
          · rw [removeSlot_eq hv]
            exact set_slots_of_ne hj
          · rw [Wf.removeSlot_free hv] at hv'
            cases hv'
          · rw [Wf.removeSlot_free hv] at hv'
            cases hv'
    · rw [if_pos ?_]
      · refine hnext h hj (fun _ _ => rfl) (hlive n) fun hok => ⟨hok, fun hv => ?_⟩
        rw [← Bool.not_eq_true]
        exact fun hd => hskip ⟨hv, hd⟩
      · cases hv : (t.slots n).valid with
        | false => rfl
        | true =>
          cases hd : (t.slots n).dirty with
          | false => rfl
          | true => exact absurd ⟨hv, hd⟩ hskip

end rules

end Tiered

end MicroStore
