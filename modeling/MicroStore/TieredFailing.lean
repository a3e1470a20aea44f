import MicroStore.TieredRecency
import MicroStore.TieredFile

/-!
# Operations of a tiered store that fail

A put or a remove of the store below may fail, without effect.  A put or a get that fails for it leaves
everything as it was.  A remove gives up the slot before it asks the store below, so when that fails the
older value below, or none, takes the place of the one in the slot (`failed_operation_shows`).

## What is here

* `Quiet` — what is assumed of the store below: it has a view, a map of raw values, and a call that
  fails leaves that view alone.  Nothing is said of how often calls fail, or which.
* `Tiered.shown` — the value a following `get` would answer, in terms of the slots and the view.
* `Tiered.Stays` — what a failing operation may do to slots on the way: flush them or drop them.
* `Tiered.FailedFrom`, `wp_failed` — the state after an operation that has failed.
* `Tiered.Trades` — the one way for it to show: a remove of a key whose slot holds another value than
  the store below.
* `failed_operation_shows` — a failed operation changes what a `get` answers exactly there.

The operations are the ones over the links; `TieredThreads.lean` lets the proof work with the lists.
-/

set_option autoImplicit false

namespace MicroStore

/-- The store below answers a `get` with what `view` says, which only a put or a remove that succeeds and
a clear change. -/
structure Quiet {σ : Type} (handle : (c : StoreCall) → σ → c.Reply × σ)
    (view : σ → Bytes → Option Bytes) : Prop where
  /-- The store is valid. -/
  isValid : ∀ s, (handle .isValid s).1 = true ∧ view (handle .isValid s).2 = view s
  /-- A lookup answers from the view. -/
  get : ∀ s k, (handle (.get k) s).1 = view s k ∧ view (handle (.get k) s).2 = view s
  /-- `exists` leaves the view alone. -/
  «exists» : ∀ s k, view (handle (.exists k) s).2 = view s
  /-- So does a put that fails. -/
  put : ∀ s k v ttl ts priority, (handle (.put k v ttl ts priority) s).1 = false →
    view (handle (.put k v ttl ts priority) s).2 = view s
  /-- And a remove that fails. -/
  remove : ∀ s k, (handle (.remove k) s).1 = false → view (handle (.remove k) s).2 = view s

/-- The operations that look for a value or change one. -/
def TieredOp.Fallible {κ υ : Type} : TieredOp κ υ → Prop
  | .put .. | .get _ | .remove _ => True
  | .exists _ | .size | .iterate | .sync | .clear => False

namespace Tiered

variable {κ υ σ : Type} [DecidableEq κ] [Inhabited κ] [Inhabited υ] {ty : Typed κ υ}

/-- The possible outcomes of the calls, as far as the values below are concerned. -/
def quiet : StoreRel (Bytes → Option Bytes) := fun c m r m' =>
  match c, r with
  | .isValid, r => r = true ∧ m' = m
  | .get k, r => r = m k ∧ m' = m
  | .exists _, _ => m' = m
  | .put .., r => r = false → m' = m
  | .remove _, r => r = false → m' = m
  | .size, _ | .iterate, _ | .clear, _ => True

/-- What is shown of a key whose slot has not expired. -/
def shown (ty : Typed κ υ) (c : κ → Option (Slot κ υ)) (m : Bytes → Option Bytes) (k : κ) : Option υ :=
  match c k with
  | some sl => some sl.value
  | none => (m (ty.keyCodec.encode k)).bind ty.valueCodec.decode

/-- The slots are the old ones, some of them flushed, and the store below is the old one unless a slot has
been flushed or has gone. -/
structure Stays (c₀ : κ → Option (Slot κ υ)) (m₀ : Bytes → Option Bytes) (c : κ → Option (Slot κ υ))
    (m : Bytes → Option Bytes) : Prop where
  /-- A slot is as it was, or has been flushed. -/
  old : ∀ k sl, c k = some sl → c₀ k = some sl ∨ ∃ sl₀, c₀ k = some sl₀ ∧ sl = sl₀.flushed
  /-- If the store below has changed, some slot has been flushed or dropped. -/
  same : m = m₀ ∨ ∃ k sl, c₀ k = some sl ∧ c k ≠ some sl

section stays

variable {c₀ c : κ → Option (Slot κ υ)} {m₀ m m' : Bytes → Option Bytes} {k : κ} {sl : Slot κ υ}
  {now : UInt32} {t t' : Tiered κ υ}

omit [DecidableEq κ] [Inhabited κ] [Inhabited υ] in
/-- Nothing has happened yet. -/
theorem Stays.refl (c₀ : κ → Option (Slot κ υ)) (m₀ : Bytes → Option Bytes) : Stays c₀ m₀ c₀ m₀ :=
  ⟨fun _ _ h => .inl h, .inl rfl⟩

omit [DecidableEq κ] [Inhabited κ] [Inhabited υ] in
/-- While the slots are the old ones, so is the store below. -/
theorem Stays.store_eq (h : Stays c₀ m₀ c₀ m) : m = m₀ :=
  h.same.resolve_right fun ⟨_, _, he, hne⟩ => hne he

omit [DecidableEq κ] [Inhabited κ] [Inhabited υ] in
/-- A slot that is in use comes from an old one. -/
theorem Stays.of_old (h : Stays c₀ m₀ c m) (hk : c k = some sl) : ∃ sl₀, c₀ k = some sl₀ := by
  rcases h.old k sl hk with h | ⟨sl₀, h, -⟩
  · exact ⟨sl, h⟩
  · exact ⟨sl₀, h⟩

omit [Inhabited κ] [Inhabited υ] in
/-- A slot is dropped. -/
theorem Stays.gone (h : Stays c₀ m₀ c m) (hk : c k = some sl) (m' : Bytes → Option Bytes) :
    Stays c₀ m₀ (Function.update c k none) m' where
  old k' sl' hk' := by
    by_cases he : k' = k
    · rw [he, Function.update_self] at hk'
      cases hk'
    · rw [Function.update_of_ne he] at hk'
      exact h.old k' sl' hk'
  same := by
    obtain ⟨sl₀, hsl₀⟩ := h.of_old hk
    refine .inr ⟨k, sl₀, hsl₀, ?_⟩
    rw [Function.update_self]
    exact nofun

omit [Inhabited κ] [Inhabited υ] in
/-- What the operations do on the way is of this kind. -/
theorem stays_upkeep : Upkeep ty quiet now (Stays c₀ m₀) where
  isValid c m r m' h hr := by
    obtain ⟨hr, rfl⟩ := hr
    exact ⟨hr, h⟩
  «exists» c m k r m' h hr := by
    obtain rfl := hr
    exact h
  get c m k r m' h hr := by
    obtain ⟨-, rfl⟩ := hr
    exact h
  expire c m k sl h hk _ := ⟨fun _ => h.gone hk m, fun _ _ m' _ => h.gone hk m'⟩
  flush c m k sl r m' h hk _ _ hd hr := by
    cases r with
    | false =>
      obtain rfl := hr rfl
      exact h
    | true =>
      rw [if_pos rfl]
      -- the slot had changed, so the old one is not the flushed one
      have hold : c₀ k = some sl := by
        refine (h.old k sl hk).resolve_right ?_
        rintro ⟨sl₀, -, rfl⟩
        cases hd
      refine ⟨fun k' sl' hk' => ?_, .inr ⟨k, sl, hold, ?_⟩⟩
      · by_cases he : k' = k
        · rw [he, Function.update_self, Option.some.injEq] at hk'
          exact .inr ⟨sl, he ▸ hold, hk'.symm⟩
        · rw [Function.update_of_ne he] at hk'
          exact h.old k' sl' hk'
      · rw [Function.update_self, ne_eq, Option.some.injEq]
        intro he
        rw [← he] at hd
        cases hd
  drop c m k sl h hk _ _ := h.gone hk m

/-- No slot has expired. -/
def Unexpired (now : UInt32) (c : κ → Option (Slot κ υ)) : Prop :=
  ∀ k sl, c k = some sl → sl.isExpired now = false

/-- What a get answers. -/
theorem wp_get_shown (h : Wf ty t) (hlive : Unexpired now (cell ty t)) (k : κ) :
    quiet.wp (get ty now t k) (fun x _ => x.1 = shown ty (cell ty t) m₀ k) m₀ := by
  have hnone (hk : cell ty t k = none) :
      shown ty (cell ty t) m₀ k = (m₀ (ty.keyCodec.encode k)).bind ty.valueCodec.decode := by
    rw [shown, hk]
  refine wp_get (J := Stays (cell ty t) m₀) stays_upkeep h (.refl _ _)
    (fun s' sl t' _ hk hexp _ => ?_) (fun s' sl t' _ hk _ _ => ?_) (fun s₁ s' hj _ hk hr => ?_)
    (fun s₁ raw s' hj _ hk hr hdec => ?_) fun s₁ raw s₂ v hj hk hr hdec => ?_
  · cases (hlive k sl hk).symm.trans hexp
  · rw [shown, hk]
  · obtain rfl := hj.store_eq
    rw [hnone hk, ← hr.1]
    rfl
  · obtain rfl := hj.store_eq
    rw [hnone hk, ← hr.1]
    exact hdec.symm
  · intros
    obtain rfl := hj.store_eq
    rw [hnone hk, ← hr.1]
    exact hdec.symm

/-- What an operation that fails has done: nothing, or it was a remove that has given up a slot. -/
def FailedFrom (ty : Typed κ υ) (t : Tiered κ υ) (m₀ : Bytes → Option Bytes) (op : TieredOp κ υ)
    (t' : Tiered κ υ) (m : Bytes → Option Bytes) : Prop :=
  Wf ty t' ∧ m = m₀ ∧ (cell ty t' = cell ty t ∧ (∀ k, op = .remove k → ∀ sl, cell ty t k = some sl →
      sl.inL2 = false) ∨
    ∃ k sl, op = .remove k ∧ cell ty t k = some sl ∧ sl.inL2 = true ∧
      cell ty t' = Function.update (cell ty t) k none)

/-- What a failed operation leaves behind. -/
theorem wp_failed (h : Wf ty t) (hlive : Unexpired now (cell ty t)) {op : TieredOp κ υ}
    (hop : op.Fallible) : quiet.wp (perform ty now t op)
      (fun x m => x.1 = false → FailedFrom ty t m₀ op x.2 m) m₀ := by
  have hJ : Stays (cell ty t) m₀ (cell ty t) m₀ := .refl _ _
  -- with the old slots, the store below is the old one
  have unchanged (m : Bytes → Option Bytes) (hj : Stays (cell ty t) m₀ (cell ty t) m)
      (hno : ∀ k, op = .remove k → ∀ sl, cell ty t k = some sl → sl.inL2 = false) :
      FailedFrom ty t m₀ op t m := ⟨h, hj.store_eq, .inl ⟨rfl, hno⟩⟩
  cases op with
  | put key value ttl priority =>
    exact wp_put stays_upkeep h hJ (fun _ _ _ _ _ _ _ _ hf => nomatch hf)
      (fun _ _ _ _ _ _ _ _ _ _ _ hf => nomatch hf) fun m hj _ _ _ _ => unchanged m hj nofun
  | get key =>
    refine StoreRel.wp_seq (Q := fun x m => x.1 = none → FailedFrom ty t m₀ (.get key) x.2 m) ?_
      fun x m hx hf => hx (Option.not_isSome_iff_eq_none.1 (Bool.not_eq_true _ ▸ hf))
    refine wp_get (J := Stays (cell ty t) m₀) stays_upkeep h hJ
      (fun m sl t' _ hk hexp _ => ?_) (fun _ _ _ _ _ _ _ hf => nomatch hf)
      (fun _ m _ hj _ _ _ => unchanged m hj nofun) (fun _ _ m _ hj _ _ _ _ => unchanged m hj nofun) ?_
    · cases (hlive key sl hk).symm.trans hexp
    · intros
      contradiction
  | remove key =>
    have hU : Upkeep ty quiet now (Stays (cell ty t) m₀) := stays_upkeep
    refine wp_remove hU h hJ (fun _ _ _ _ _ _ _ _ hf => nomatch hf)
      (fun m r m' sl t' hj hk hin hwf hcell hr hf => ?_) (fun _ _ _ _ _ _ hf => nomatch hf)
      fun m r m' hj hk hr hf => ?_
    · obtain rfl := hj.store_eq
      exact ⟨hwf, hr hf, .inr ⟨key, sl, rfl, hk, hin, hcell⟩⟩
    · obtain rfl := hr hf
      refine unchanged m' hj fun k hke sl hsl => ?_
      obtain rfl : key = k := TieredOp.remove.inj hke
      cases hk.symm.trans hsl
  | «exists» | size | iterate | sync | clear => cases hop

/-- Where giving up the slot shows: the value below is another one. -/
def Trades (ty : Typed κ υ) (c : κ → Option (Slot κ υ)) (m : Bytes → Option Bytes)
    (op : TieredOp κ υ) : Prop :=
  ∃ k sl, op = .remove k ∧ c k = some sl ∧ sl.inL2 = true ∧
    (m (ty.keyCodec.encode k)).bind ty.valueCodec.decode ≠ some sl.value

/-- It shows exactly if the operation trades one value for another. -/
theorem FailedFrom.shown_iff {op : TieredOp κ υ} (h : FailedFrom ty t m₀ op t' m) :
    (∀ k, shown ty (cell ty t') m k = shown ty (cell ty t) m₀ k) ↔ ¬Trades ty (cell ty t) m₀ op := by
  obtain ⟨-, rfl, ⟨hcell, hno⟩ | ⟨k, sl, rfl, hk, hin, hcell⟩⟩ := h
  · rw [hcell]
    refine iff_of_true (fun _ => rfl) ?_
    rintro ⟨k, sl, hop, hk, hin, -⟩
    cases (hno k hop sl hk).symm.trans hin
  · have hbelow : shown ty (cell ty t') m k
        = (m (ty.keyCodec.encode k)).bind ty.valueCodec.decode := by
      rw [shown, hcell, Function.update_self]
    have hslot : shown ty (cell ty t) m k = some sl.value := by
      rw [shown, hk]
    constructor
    · rintro hall ⟨k', sl', hop, hk', -, hne⟩
      obtain rfl : k = k' := TieredOp.remove.inj hop
      obtain rfl := Option.some.inj (hk.symm.trans hk')
      exact hne (hbelow.symm.trans ((hall k).trans hslot))
    · intro hno k'
      by_cases he : k' = k
      · rw [he, hbelow, hslot]
        by_contra hne
        exact hno ⟨k, sl, rfl, hk, hin, hne⟩
      · rw [shown, shown, hcell, Function.update_of_ne he]

/-- No slot has expired afterwards. -/
theorem FailedFrom.unexpired {op : TieredOp κ υ} (h : FailedFrom ty t m₀ op t' m)
    (hlive : Unexpired now (cell ty t)) : Unexpired now (cell ty t') := by
  obtain ⟨-, -, ⟨hcell, -⟩ | ⟨k, sl, -, -, -, hcell⟩⟩ := h
  · rw [hcell]
    exact hlive
  · rw [hcell]
    intro k' sl' hk'
    by_cases he : k' = k
    · rw [he, Function.update_self] at hk'
      cases hk'
    · rw [Function.update_of_ne he] at hk'
      exact hlive k' sl' hk'

end stays

end Tiered

/-! ## What a following get answers

`Linked.shows` runs a `get` on the state; `shown` is what it computes. -/

namespace Linked

variable {κ υ σ : Type} [DecidableEq κ] [Inhabited κ] [Inhabited υ]

/-- What a get answers. -/
def shows (ty : Typed κ υ) (handle : (c : StoreCall) → σ → c.Reply × σ) (now : UInt32) (l : Linked κ υ)
    (s : σ) (k : κ) : Option υ :=
  (Prog.exec handle (get ty now l k) s).1.1

/-- The remove of a key whose slot says that it is in the store below, which has another value, or none. -/
def Trades (ty : Typed κ υ) (view : Bytes → Option Bytes) (l : Linked κ υ) (op : TieredOp κ υ) : Prop :=
  ∃ k i, op = .remove k ∧ find ty l k = some i ∧ (l.slots i).inL2 = true ∧
    (view (ty.keyCodec.encode k)).bind ty.valueCodec.decode ≠ some (l.slots i).value

end Linked

/-- Every call of a quiet store is one that the rules allow for. -/
theorem Quiet.outcome {σ : Type} {handle : (c : StoreCall) → σ → c.Reply × σ}
    {view : σ → Bytes → Option Bytes} (hq : Quiet handle view) (c : StoreCall) (s : σ) :
    Tiered.quiet c (view s) (handle c s).1 (view (handle c s).2) := by
  cases c with
  | isValid => exact hq.isValid s
  | get k => exact hq.get s k
  | «exists» k => exact hq.exists s k
  | put => exact fun hf => hq.put s _ _ _ _ _ hf
  | remove k => exact hq.remove s k
  | size | iterate | clear => exact trivial

section failing

variable {κ υ σ : Type} [DecidableEq κ] [Inhabited κ] [Inhabited υ] {ty : Typed κ υ}
  {handle : (c : StoreCall) → σ → c.Reply × σ} {view : σ → Bytes → Option Bytes} {l : Linked κ υ}
  {t : Tiered κ υ} {now : UInt32}

/-- A following `get` answers what is shown. -/
theorem Linked.Sim.shows_eq (h : Linked.Sim ty l t) (hq : Quiet handle view)
    (hlive : Tiered.Unexpired now (Tiered.cell ty t)) (s : σ) (k : κ) :
    Linked.shows ty handle now l s k = Tiered.shown ty (Tiered.cell ty t) (view s) k := by
  rw [Linked.shows, ((Linked.lockstep_get h).exec handle s).1.1]
  exact Prog.wp_exec (π := view) (Tiered.wp_get_shown h.wf hlive k) fun x _ => hq.outcome x.1 x.2

/-- The condition over the links is the one over the lists. -/
theorem Linked.Sim.trades_iff (h : Linked.Sim ty l t) {m : Bytes → Option Bytes} {op : TieredOp κ υ} :
    Linked.Trades ty m l op ↔ Tiered.Trades ty (Tiered.cell ty t) m op := by
  refine exists_congr fun k => ?_
  rw [Tiered.cell]
  constructor
  · rintro ⟨i, hop, hi, hin, hne⟩
    rw [h.threads.slots] at hin hne
    rw [h.find_eq] at hi
    exact ⟨_, hop, by rw [hi]; rfl, hin, hne⟩
  · rintro ⟨sl, hop, hsl, hin, hne⟩
    obtain ⟨i, hi, rfl⟩ := Option.map_eq_some_iff.1 hsl
    rw [← h.threads.slots] at hin hne
    exact ⟨i, hop, (h.find_eq k).trans hi, hin, hne⟩

end failing

/-- **When an operation that fails shows.**  In every state a run reaches, if no slot has expired, a put, a
get or a remove that fails leaves what a following get answers as it was, exactly unless it is the remove
of a key whose slot is also in the store below, which has another value. -/
theorem failed_operation_shows {κ υ σ : Type} [DecidableEq κ] [Inhabited κ] [Inhabited υ]
    (ty : Typed κ υ) {handle : (c : StoreCall) → σ → c.Reply × σ} {view : σ → Bytes → Option Bytes}
    (hq : Quiet handle view) (s : σ) (ops : List (UInt32 × TieredOp κ υ)) (now : UInt32)
    (op : TieredOp κ υ) (hop : op.Fallible) (x y : LinkedState κ υ σ)
    (hx : x = LinkedState.run ty handle s ops) (hy : y = x.step ty handle (now, op))
    (hlive : ∀ i, (x.links.slots i).valid = true → (x.links.slots i).isExpired now = false)
    (hfail : (Prog.exec handle (Linked.perform ty now x.links op) x.store).1.1 = false) :
    (∀ k, Linked.shows ty handle now y.links y.store k = Linked.shows ty handle now x.links x.store k) ↔
      ¬Linked.Trades ty (view x.store) x.links op := by
  subst hx hy
  obtain ⟨t, h⟩ := LinkedState.run_sim ty handle s ops
  have hlive : Tiered.Unexpired now (Tiered.cell ty t) := by
    intro k sl hk
    obtain ⟨i, hv, -, rfl⟩ := h.wf.cell_eq_some.1 hk
    rw [← h.threads.slots] at hv ⊢
    exact hlive i hv
  obtain ⟨⟨hok, hsim⟩, hstore⟩ := (Linked.lockstep_perform h now op).exec handle
    (LinkedState.run ty handle s ops).store
  have hfailed := Prog.wp_exec (h := handle) (π := view) (Tiered.wp_failed h.wf hlive hop)
    (fun x _ => hq.outcome x.1 x.2) (hok.symm.trans hfail)
  rw [← hstore] at hfailed
  rw [h.trades_iff, ← hfailed.shown_iff]
  refine forall_congr' fun k => ?_
  rw [h.shows_eq hq hlive]
  rw [LinkedState.step, hsim.shows_eq hq (hfailed.unexpired hlive)]

/-- A store below that never removes anything. -/
def stubborn : (c : StoreCall) → (Bytes → Option Bytes) → c.Reply × (Bytes → Option Bytes)
  | .isValid, m => (true, m)
  | .put k v _ _ _, m => (true, Function.update m k (some v))
  | .get k, m => (m k, m)
  | .exists k, m => ((m k).isSome, m)
  | .remove _, m => (false, m)
  | .size, m => ((0 : Nat), m)
  | .iterate, m => (([] : List (Bytes × Bytes)), m)
  | .clear, _ => ((), fun _ => none)

/-- A store that fails always is quiet. -/
theorem stubborn_quiet : Quiet stubborn id where
  isValid _ := ⟨rfl, rfl⟩
  get _ _ := ⟨rfl, rfl⟩
  «exists» _ _ := rfl
  put _ _ _ _ _ _ hf := nomatch hf
  remove _ _ _ := rfl

/-- A value is written through, and changed in the slot. -/
def changedValue : LinkedState UInt8 UInt8 (Bytes → Option Bytes) :=
  LinkedState.run byteTyped stubborn (fun _ => none)
    [(0, .put 1 5 0 0), (0, .sync), (0, .put 1 9 0 0)]

theorem changedValue_unexpired (i : Nat) (hv : (changedValue.links.slots i).valid = true) :
    (changedValue.links.slots i).isExpired 0 = false := by
  obtain ⟨t, h⟩ := LinkedState.run_sim byteTyped stubborn (fun _ => none)
    [(0, .put 1 5 0 0), (0, .sync), (0, .put 1 9 0 0)]
  have hlt : i < 1 := (h.wf.lt i ((h.valid_eq i).symm.trans hv)).1
  obtain rfl : i = 0 := by omega
  decide +kernel

/-- The remove that fails shows: the older value takes the place of the one in the slot. -/
theorem failed_operation_shows_sample :
    (∀ k, Linked.shows byteTyped stubborn 0 (changedValue.step byteTyped stubborn (0, .remove 1)).links
        (changedValue.step byteTyped stubborn (0, .remove 1)).store k
      = Linked.shows byteTyped stubborn 0 changedValue.links changedValue.store k) ↔
      ¬Linked.Trades byteTyped changedValue.store changedValue.links (.remove 1) :=
  failed_operation_shows byteTyped stubborn_quiet _ _ 0 (.remove 1) trivial changedValue _ rfl rfl
    changedValue_unexpired (by decide +kernel)

theorem failed_remove_shows_older :
    (Prog.exec stubborn (Linked.perform byteTyped 0 changedValue.links (.remove 1))
        changedValue.store).1.1 = false ∧
      Linked.shows byteTyped stubborn 0 changedValue.links changedValue.store 1 = some 9 ∧
      Linked.shows byteTyped stubborn 0 (changedValue.step byteTyped stubborn (0, .remove 1)).links
        (changedValue.step byteTyped stubborn (0, .remove 1)).store 1 = some 5 := by
  decide +kernel

end MicroStore
