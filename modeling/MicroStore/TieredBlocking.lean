import MicroStore.HeapStore
import MicroStore.TieredFile

/-!
# Entries that are too large

A tiered store looks at the size of an entry only when it flushes it.  An entry that the store below
rejects is accepted, stays in its slot, and once it is the least recently used one no new key finds a
slot.  What a put answers is what it should exactly where it is not blocked so (`put_answers_iff`).

## What is here

* `StoreRel.Takes` — what is needed of the store below: it stays valid, and it takes a put exactly if it
  accepts the key and the value.
* `AcceptsCut` — what the stores of this repository accept: lengths within the limits, after they have
  been cut to the width of their parameter.
* `fileTakes`, `heapTakes` — both stores are of this kind, whatever has been done to them.
* `Tiered.Blocked` — the condition on the slots before a put: nothing has expired, the key has no slot,
  none is free, and the least recently used one holds a changed entry that the store below does not
  accept.
* `wp_put_fails`, `wp_put_blocked` — a put fails exactly if it is blocked.
* `put_answers_iff` — so the answer of a put says something about its own entry exactly where the two
  happen to agree.
-/

set_option autoImplicit false

namespace MicroStore

/-! ## Stores that take entries

The store below is known by the outcomes of its calls, a relation; `V` is a property of its state
that they keep. -/

/-- In all states of `V` the store below is valid, and a put succeeds exactly if the store accepts the
entry. -/
structure StoreRel.Takes {σ : Type} (R : StoreRel σ) (accepts : Bytes → Bytes → Prop) (V : σ → Prop) :
    Prop where
  /-- Every call keeps the property. -/
  keep : ∀ {c s r s'}, V s → R c s r s' → V s'
  /-- The store answers that it is valid. -/
  isValid : ∀ {s} {r : Bool} {s'}, V s → R .isValid s r s' → r = true
  /-- A put succeeds exactly if the store accepts its key and value. -/
  put : ∀ {s k v ttl ts priority} {r : Bool} {s'}, V s → R (.put k v ttl ts priority) s r s' →
    (r = true ↔ accepts k v)

/-- What both stores accept: the lengths are cut to 8 and 16 bits before they are compared. -/
def AcceptsCut (k v : Bytes) : Prop := k.length % 2 ^ 8 ≤ maxKeyLen ∧ v.length % 2 ^ 16 ≤ maxValueLen

instance (k v : Bytes) : Decidable (AcceptsCut k v) := inferInstanceAs (Decidable (_ ∧ _))

/-- So they accept what is within the limits once it is cut. -/
theorem acceptsCut_iff {k v : Bytes} : AcceptsCut k v ↔
    (Buf.at k).asKey.bytes.length ≤ maxKeyLen ∧ (Buf.at v).asValue.bytes.length ≤ maxValueLen := by
  rw [Buf.length_asKey, Buf.length_asValue]
  exact Iff.rfl

/-- A file store below, with keys and values of any length. -/
def anyFileBacking (su : Setup) : Backing Moment (Store × FileSystem) :=
  { fileBacking su with
    fine := su.SmallCall
    decidableFine := fun _ _ _ => inferInstance }

/-- The operation a call is. -/
def StoreCall.operation (e : Moment) : StoreCall → Operation
  | .isValid | .size => .size
  | .put k v ttl ts priority => .put e.clock (Buf.at k).asKey (Buf.at v).asValue ttl ts priority
  | .get k => .get e.clock (Buf.at k).asKey
  | .exists k => .exists e.clock (Buf.at k).asKey
  | .remove k => .remove e.clock (Buf.at k).asKey e.junkTtl e.junkPriority
  | .iterate => .iterate
  | .clear => .clear

/-- A call of a file store is an operation of a run. -/
theorem fileCall_perform (su : Setup) (e : Moment) (c : StoreCall) (s : Store × FileSystem) :
    Prog.exec posix (su.perform s.1 (c.operation e)) s.2
        = ((Prog.exec posix (fileCall s.1 e c) s.2).1.2, (Prog.exec posix (fileCall s.1 e c) s.2).2) ∧
      Prog.trace posix (su.perform s.1 (c.operation e)) s.2
        = Prog.trace posix (fileCall s.1 e c) s.2 := by
  cases c with
  | isValid | size | «exists» => exact ⟨rfl, rfl⟩
  | put | get | remove =>
    rw [StoreCall.operation, Setup.perform, Prog.exec_bind, Prog.trace_bind]
    exact ⟨rfl, List.append_nil _⟩
  | iterate =>
    rw [StoreCall.operation, Setup.perform, fileCall, Prog.exec_bind, Prog.trace_bind, Prog.exec_bind,
      Prog.trace_bind]
    exact ⟨rfl, rfl⟩
  | clear =>
    rw [StoreCall.operation, Setup.perform, fileCall, Prog.exec_bind, Prog.trace_bind]
    exact ⟨rfl, (List.append_nil _).symm⟩

/-- A file store that suffers no fault takes what it accepts. -/
theorem fileTakes (su : Setup) (e : Moment) : ((anyFileBacking su).rel e).Takes AcceptsCut
    fun s => ∃ mm L, Held su false mm s.1 s.2 L where
  keep := by
    rintro c s r s' ⟨mm, L, h⟩ ⟨hsmall, hr⟩
    obtain ⟨rfl, rfl⟩ := Prod.mk.inj hr
    obtain ⟨hexec, htrace⟩ := fileCall_perform su e c s
    have hdetach : (c.operation e).detaches false = false := by cases c <;> rfl
    obtain ⟨L', h', -⟩ := Env.exec_of_wp (@Held.wp_perform _ _ _ _ _ _ h (c.operation e) fun _ => rfl)
      (htrace ▸ hsmall)
    rw [hexec, hdetach] at h'
    exact ⟨_, L', h'⟩
  isValid := by
    rintro s r s' ⟨mm, L, h⟩ ⟨-, hr⟩
    obtain ⟨rfl, rfl⟩ := Prod.mk.inj hr
    exact h.rep.valid
  put := by
    rintro s k v ttl ts priority r s' ⟨mm, L, h⟩ ⟨hsmall, hr⟩
    obtain ⟨rfl, rfl⟩ := Prod.mk.inj hr
    rw [acceptsCut_iff]
    by_cases hlim : (Buf.at k).asKey.bytes.length ≤ maxKeyLen ∧
        (Buf.at v).asValue.bytes.length ≤ maxValueLen
    · exact iff_of_true (Env.exec_of_wp (h.wp_put hlim) hsmall).1 hlim
    · refine iff_of_false ?_ hlim
      rw [fileCall, h.rep.put_beyond hlim]
      exact Bool.false_ne_true

/-- A `HeapStore` below, at a time. -/
def heapBacking : Backing UInt32 HeapStore where
  time := id
  handle now
    | .isValid, hs => (true, hs)
    | .put k v ttl ts priority, hs => hs.put now (Buf.at k).asKey (Buf.at v).asValue ttl ts priority
    | .get k, hs =>
      let y := hs.get now (Buf.at k).asKey true maxValueLen
      (y.1.map fun r => r.1.take r.2, y.2)
    | .exists k, hs => (hs.exists (Buf.at k).asKey, hs)
    | .remove k, hs => hs.remove (Buf.at k).asKey
    | .size, hs => (hs.size, hs)
    | .iterate, hs => ((hs.data.entries.insertionSort fun a b => ¬b.1 < a.1).map
        fun it => (it.1, it.2.value), hs)
    | .clear, hs => ((), hs.clear)
  fine _ _ _ := True
  decidableFine _ _ _ := .isTrue trivial

/-- A `HeapStore` takes what it accepts. -/
theorem heapTakes (now : UInt32) : (heapBacking.rel now).Takes AcceptsCut fun _ => True where
  keep _ _ := trivial
  isValid := by
    rintro s r s' - ⟨-, hr⟩
    exact (Prod.mk.inj hr).1
  put := by
    rintro s k v ttl ts priority r s' - ⟨-, hr⟩
    obtain ⟨rfl, rfl⟩ := Prod.mk.inj hr
    rw [acceptsCut_iff]
    change (HeapStore.put s now (Buf.at k).asKey (Buf.at v).asValue ttl ts priority).1 = true ↔ _
    rw [HeapStore.put]
    by_cases hk : maxKeyLen < (Buf.at k).asKey.bytes.length
    · rw [if_pos hk]
      exact iff_of_false Bool.false_ne_true fun h => Nat.not_le.2 hk h.1
    · rw [if_neg hk]
      by_cases hv : maxValueLen < (Buf.at v).asValue.bytes.length
      · rw [if_pos hv]
        exact iff_of_false Bool.false_ne_true fun h => Nat.not_le.2 hv h.2
      · rw [if_neg hv]
        exact iff_of_true rfl ⟨Nat.not_lt.1 hk, Nat.not_lt.1 hv⟩

/-! ## Puts that are blocked

A put needs a slot unless its key has one.  It takes a free one, or that of the least recently used
entry, which has to be flushed before if it has changed. -/

namespace Tiered

section blocking

variable {κ υ σ : Type} [DecidableEq κ] [Inhabited κ] [Inhabited υ]

/-- A put of the key finds no slot: nothing has expired, the key has no slot, none is free, and the least
recently used one holds a changed entry that the store below does not accept. -/
def Blocked (ty : Typed κ υ) (accepts : Bytes → Bytes → Prop) (now : UInt32) (t : Tiered κ υ) (k : κ) :
    Prop :=
  (∀ i, (t.slots i).valid = true → (t.slots i).isExpired now = false) ∧ find ty t k = none ∧
    freeSlot ty t = none ∧ ∀ i, t.lru.getLast? = some i → (t.slots i).dirty = true ∧
      ¬accepts (ty.keyCodec.encode (t.slots i).key) (ty.valueCodec.encode (t.slots i).value)

variable {ty : Typed κ υ} {R : StoreRel σ} {accepts : Bytes → Bytes → Prop} {V : σ → Prop}
  {now : UInt32} {t : Tiered κ υ} {s : σ}

omit [Inhabited κ] [Inhabited υ] in
/-- Whatever the slots hold, the store below stays valid. -/
theorem upkeep_of_takes (hR : R.Takes accepts V) : Upkeep ty R now fun _ s => V s where
  isValid _ _ _ _ hv hr := ⟨hR.isValid hv hr, hR.keep hv hr⟩
  «exists» _ _ _ _ _ hv hr := hR.keep hv hr
  get _ _ _ _ _ hv hr := hR.keep hv hr
  expire _ _ _ _ hv _ _ := ⟨fun _ => hv, fun _ _ _ hr => hR.keep hv hr⟩
  flush _ _ _ _ _ _ hv _ _ _ _ hr := hR.keep hv hr
  drop _ _ _ _ hv _ _ _ := hv

/-- A put that fails was blocked. -/
theorem wp_put_fails (hR : R.Takes accepts V) (h : Wf ty t) (hv : V s) {k : κ} {v : υ} {ttl : UInt32}
    {priority : UInt8} : R.wp (put ty now t k v ttl priority)
      (fun x s' => Wf ty x.2 ∧ V s' ∧ (x.1 = false → Blocked ty accepts now t k)) s := by
  refine wp_put (upkeep_of_takes hR) h hv (fun _ _ _ _ hv' _ hwf _ => ⟨hwf, hv', nofun⟩)
    (fun _ _ _ _ _ _ _ _ hv' hwf _ => ⟨hwf, hv', nofun⟩) fun s' hv' hfind hlive href =>
      ⟨h, hv', fun _ => ⟨hlive, hfind, href.1, fun i hi => ?_⟩⟩
  obtain ⟨-, hd, s₁, s₂, hv₁, hr⟩ := href.2 i hi
  exact ⟨hd, fun hacc => Bool.false_ne_true ((hR.put hv₁ hr).2 hacc)⟩

/-- A put that is blocked fails. -/
theorem wp_put_blocked (hR : R.Takes accepts V) (h : Wf ty t) (hv : V s) {k : κ} {v : υ} {ttl : UInt32}
    {priority : UInt8} (hb : Blocked ty accepts now t k) :
    R.wp (put ty now t k v ttl priority) (fun x _ => x.1 = false) s := by
  obtain ⟨hlive, hfind, hfree, hlast⟩ := hb
  refine StoreRel.wp_call fun r s₀ hr => ?_
  obtain rfl : r = true := hR.isValid hv hr
  refine StoreRel.wp_seq (wp_pruneExpired (upkeep_of_takes hR) h (hR.keep hv hr))
    fun t₁ s₁ ⟨_, hv₁, _, hid, _⟩ => ?_
  obtain rfl := hid hlive
  rw [hfind]
  refine StoreRel.wp_seq (Q := fun x _ => x.1 = none) ?_ fun x s₂ hx => ?_
  · rw [allocateSlot, hfree]
    dsimp only
    cases hl : t₁.lru.getLast? with
    | none => exact rfl
    | some i =>
      have hvi : (t₁.slots i).valid = true := (h.memLru i).1 (List.mem_of_getLast? hl)
      obtain ⟨hd, hrejects⟩ := hlast i hl
      dsimp only
      rw [hlive i hvi, if_neg Bool.false_ne_true, flushSlot]
      refine StoreRel.wp_seq (Q := fun x _ => x.1 = false) ?_ fun x s₂ hx => ?_
      · rw [if_neg (by rw [hvi, hd]; decide)]
        refine StoreRel.wp_call fun r s₂ hr => ?_
        have hr : r ≠ true := fun he => hrejects ((hR.put hv₁ hr).1 he)
        obtain rfl : r = false := Bool.eq_false_iff.2 hr
        exact rfl
      · obtain ⟨ok, t₂⟩ := x
        obtain rfl : ok = false := hx
        exact rfl
  · obtain ⟨slot, t₂⟩ := x
    obtain rfl : slot = none := hx
    exact rfl

/-- Every operation keeps the threads right and the store below valid. -/
theorem wp_perform_takes (hR : R.Takes accepts V) (h : Wf ty t) (hv : V s) (op : TieredOp κ υ) :
    R.wp (perform ty now t op) (fun x s' => Wf ty x.2 ∧ V s') s := by
  have hU : Upkeep ty R now fun _ s => V s := upkeep_of_takes hR
  cases op with
  | put k v ttl priority => exact Prog.wp_mono (wp_put_fails hR h hv) fun x s' hx => ⟨hx.1, hx.2.1⟩
  | get k =>
    exact StoreRel.wp_seq (Q := fun (x : Option υ × Tiered κ υ) s' => Wf ty x.2 ∧ V s') (wp_get hU h hv
      (fun _ _ _ hv' _ _ hwf => ⟨hwf, hv'⟩) (fun _ _ _ hv' _ _ hwf => ⟨hwf, hv'⟩)
      (fun _ _ _ hv' _ _ => ⟨h, hv'⟩) (fun _ _ _ _ hv' _ _ _ => ⟨h, hv'⟩)
      fun _ _ _ _ _ _ _ _ _ _ _ hv' _ hwf _ => ⟨hwf, hv'⟩) fun _ s' hx => hx
  | «exists» k =>
    exact wp_exists hU h hv (fun _ _ _ hv' _ _ hwf => ⟨hwf, hv'⟩) (fun _ _ hv' _ _ => ⟨h, hv'⟩)
      fun _ _ _ _ hv' _ _ => ⟨h, hv'⟩
  | remove k =>
    exact wp_remove hU h hv (fun _ _ _ hv' _ _ hwf _ => ⟨hwf, hv'⟩)
      (fun _ _ _ _ _ hv' _ _ hwf _ hr => ⟨hwf, hR.keep hv' hr⟩) (fun _ _ _ hv' _ _ => ⟨h, hv'⟩)
      fun _ _ _ hv' _ hr => ⟨h, hR.keep hv' hr⟩
  | size =>
    refine StoreRel.wp_seq (Q := fun _ s' => V s') (StoreRel.wp_call fun r s₀ hr => ?_)
      fun x s' hv' => ⟨h, hv'⟩
    obtain rfl : r = true := hR.isValid hv hr
    exact StoreRel.wp_call fun n s₁ hr₁ => hR.keep (hR.keep hv hr) hr₁
  | iterate =>
    refine StoreRel.wp_seq (Q := fun (x : List (κ × υ) × Tiered κ υ) s' => Wf ty x.2 ∧ V s')
      (StoreRel.wp_call fun r s₀ hr => ?_) fun _ s' hx => hx
    obtain rfl : r = true := hR.isValid hv hr
    refine StoreRel.wp_seq (wp_pruneExpired hU h (hR.keep hv hr)) fun t₁ s₁ ⟨h₁, hv₁, _, _, _⟩ => ?_
    exact StoreRel.wp_call fun raws s₂ hr => ⟨h₁, hR.keep hv₁ hr⟩
  | sync =>
    refine StoreRel.wp_call fun r s₀ hr => ?_
    obtain rfl : r = true := hR.isValid hv hr
    refine StoreRel.wp_seq (wp_pruneExpired hU h (hR.keep hv hr)) fun t₁ s₁ ⟨h₁, hv₁, hlive, _, _⟩ => ?_
    exact Prog.wp_mono (wp_syncLoop hU (fun _ _ _ _ _ hv' _ _ _ _ hr => hR.keep hv' hr) h₁ hv₁ hlive)
      fun x s' hx => ⟨hx.1, hx.2.1⟩
  | clear =>
    refine StoreRel.wp_seq (Q := fun t' s' => Wf ty t' ∧ V s') (StoreRel.wp_call fun r s₀ hr => ?_)
      fun x s' hx => hx
    obtain rfl : r = true := hR.isValid hv hr
    exact StoreRel.wp_call fun _ s₁ hr₁ => ⟨wf_new, hR.keep (hR.keep hv hr) hr₁⟩

end blocking

end Tiered

/-! ## Puts in a run

No step of a run makes the store below invalid or the slots ill-formed, so the condition can be asked
of the slots in any state a run leads to. -/

section runs

variable {κ υ σ ε : Type} [DecidableEq κ] [Inhabited κ] [Inhabited υ]

/-- A put answers as its entry's size demands: it succeeds if the size is within the limits, and fails if
the store below would reject the entry. -/
def TieredState.PutAnswers (B : Backing ε σ) (ty : Typed κ υ) (x : TieredState κ υ σ) (e : ε) (k : κ)
    (v : υ) (ttl : UInt32) (priority : UInt8) : Prop :=
  let ok := (B.exec e (Tiered.put ty (B.time e) x.tier k v ttl priority) x.store).1.1
  ((ty.keyCodec.encode k).length ≤ maxKeyLen ∧ (ty.valueCodec.encode v).length ≤ maxValueLen →
    ok = true) ∧
  (¬AcceptsCut (ty.keyCodec.encode k) (ty.valueCodec.encode v) → ok = false)

/-- The condition for it: the put is not blocked if its entry is within the limits, and is blocked if the
store below would reject it. -/
def TieredState.PutWorks (B : Backing ε σ) (ty : Typed κ υ) (x : TieredState κ υ σ) (e : ε) (k : κ)
    (v : υ) : Prop :=
  ((ty.keyCodec.encode k).length ≤ maxKeyLen ∧ (ty.valueCodec.encode v).length ≤ maxValueLen →
    ¬Tiered.Blocked ty AcceptsCut (B.time e) x.tier k) ∧
  (¬AcceptsCut (ty.keyCodec.encode k) (ty.valueCodec.encode v) →
    Tiered.Blocked ty AcceptsCut (B.time e) x.tier k)

/-- A put answers as it should exactly if it works. -/
theorem StoreRel.Takes.putAnswers_iff {B : Backing ε σ} {V : σ → Prop} {ty : Typed κ υ}
    {ops : List (ε × TieredOp κ υ)} {e : ε} {k : κ} {v : υ} {ttl : UInt32} {priority : UInt8}
    (hB : ∀ e, (B.rel e).Takes AcceptsCut V) {x : TieredState κ υ σ} (h : Tiered.Wf ty x.tier)
    (hv : V x.store) (hfine : TieredState.All B ty (fun x e op => x.Fine B ty e op)
      (ops ++ [(e, .put k v ttl priority)]) x) :
    (x.run B ty ops).PutAnswers B ty e k v ttl priority ↔ (x.run B ty ops).PutWorks B ty e k v := by
  induction ops generalizing x with
  | nil =>
    have hfails := Backing.exec_of_wp (Tiered.wp_put_fails (hB e) h hv) hfine.1
    have hblocked (hb : Tiered.Blocked ty AcceptsCut (B.time e) x.tier k) :=
      Backing.exec_of_wp (Tiered.wp_put_blocked (hB e) h hv hb) hfine.1
    have hiff : (B.exec e (Tiered.put ty (B.time e) x.tier k v ttl priority) x.store).1.1 = false ↔
        Tiered.Blocked ty AcceptsCut (B.time e) x.tier k := ⟨hfails.2.2, hblocked⟩
    have hnot : (B.exec e (Tiered.put ty (B.time e) x.tier k v ttl priority) x.store).1.1 = true ↔
        ¬Tiered.Blocked ty AcceptsCut (B.time e) x.tier k := by
      rw [← hiff, Bool.not_eq_false]
    exact and_congr (imp_congr_right fun _ => hnot) (imp_congr_right fun _ => hiff)
  | cons op ops ih =>
    obtain ⟨e', op⟩ := op
    obtain ⟨hwf, hv'⟩ := Backing.exec_of_wp (Tiered.wp_perform_takes (hB e') h hv op) hfine.1
    exact ih hwf hv' hfine.2

/-- Nothing goes wrong in a `HeapStore`. -/
theorem heapBacking_fine (ty : Typed κ υ) (ops : List (UInt32 × TieredOp κ υ))
    (x : TieredState κ υ HeapStore) :
    TieredState.All heapBacking ty (fun x e op => x.Fine heapBacking ty e op) ops x := by
  induction ops generalizing x with
  | nil => trivial
  | cons op ops ih => exact ⟨fun _ _ => trivial, ih _⟩

end runs

/-- **Which puts answer as they should**, over a file store that suffers no fault and over a `HeapStore`:
those that are not blocked by an entry the store below does not accept, and whose own entry it accepts,
unless they are blocked. -/
theorem put_answers_iff {κ υ : Type} [DecidableEq κ] [Inhabited κ] [Inhabited υ] (ty : Typed κ υ) (k : κ)
    (v : υ) (ttl : UInt32) (priority : UInt8) :
    (∀ (su : Setup) (order : IterationOrder) (fs : FileSystem), su.Starts order fs →
      ∀ (ops : List (Moment × TieredOp κ υ)) (e : Moment),
      let x : TieredState κ υ _ := .start (Prog.exec posix (su.start order) fs)
      TieredState.All (anyFileBacking su) ty (fun x e op => x.Fine (anyFileBacking su) ty e op)
        (ops ++ [(e, .put k v ttl priority)]) x →
      ((x.run (anyFileBacking su) ty ops).PutAnswers (anyFileBacking su) ty e k v ttl priority ↔
        (x.run (anyFileBacking su) ty ops).PutWorks (anyFileBacking su) ty e k v)) ∧
    ∀ (hs : HeapStore) (ops : List (UInt32 × TieredOp κ υ)) (now : UInt32),
      let x : TieredState κ υ _ := .start hs
      (x.run heapBacking ty ops).PutAnswers heapBacking ty now k v ttl priority ↔
        (x.run heapBacking ty ops).PutWorks heapBacking ty now k v := by
  constructor
  · intro su order fs hstart ops e x hfine
    obtain ⟨L, h, -⟩ := hstart.held
    exact StoreRel.Takes.putAnswers_iff (fileTakes su) Tiered.wf_new ⟨_, L, h⟩ hfine
  · intro hs ops now x
    exact StoreRel.Takes.putAnswers_iff heapTakes Tiered.wf_new trivial
      (heapBacking_fine ty (ops ++ [(now, .put k v ttl priority)]) x)

/-- Bytes as keys, one slot, and values of any length. -/
def bytesTyped : Typed UInt8 Bytes where
  cacheSize := 1
  hashBuckets := 1
  keyHash := UInt8.toNat
  keyCodec := ⟨fun b => [b], List.head?⟩
  valueCodec := ⟨id, some⟩

/-- An entry within the limits is put where the only slot is taken by a value that is one byte too long. -/
theorem put_answers_iff_sample :
    let big : Bytes := List.replicate (maxValueLen + 1) 0
    let x : TieredState UInt8 Bytes _ := .start sampleOpened
    let x := x.run (anyFileBacking sampleSetup) bytesTyped [(.at 0, .put 1 big 0 0)]
    ((x.tier.slots 0).value = big ∧ (x.tier.slots 0).valid = true) ∧
      (x.PutAnswers (anyFileBacking sampleSetup) bytesTyped (.at 0) 2 [] 0 0 ↔
        x.PutWorks (anyFileBacking sampleSetup) bytesTyped (.at 0) 2 []) :=
  ⟨by decide +kernel, (put_answers_iff bytesTyped 2 [] 0 0).1 sampleSetup .recent .empty sampleSetup_starts
    [(.at 0, .put 1 (List.replicate (maxValueLen + 1) 0) 0 0)] (.at 0) (by decide +kernel)⟩

/-- A value that is one byte too long is accepted, and then no other key is. -/
theorem put_blocked :
    let x : TieredState UInt8 Bytes _ := .start HeapStore.new
    let big : Bytes := List.replicate (maxValueLen + 1) 0
    ¬x.PutAnswers heapBacking bytesTyped 0 1 big 0 0 ∧
      ¬(x.run heapBacking bytesTyped [(0, .put 1 big 0 0)]).PutAnswers heapBacking bytesTyped 0 2 [] 0 0 := by
  intro x big
  refine ⟨fun h => ?_, fun h => ?_⟩
  · have hno := h.2 (by decide +kernel)
    revert hno
    decide +kernel
  · have hyes := h.1 (by decide +kernel)
    revert hyes
    decide +kernel

end MicroStore
