import MicroStore.TypedStore

/-!
# A typed store is a map

`TypedStore` adds the codecs to what the store below does.  Over a lawful store, with codecs that decode
what they encode, every run of its operations shows the map of the puts whose TTL has not run out
(`typed_refines_map`).  What has expired may still be counted and yielded by the iterator until the
store below forgets it.

## What is here

* `TypedStore.put`, `remove`, `exists` and `size` — the operations of the source that `TypedStore.lean`
  has no need of.
* `TypedOp`, `TypedStore.perform`, `TypedStore.run` — runs over any store below that is given by a
  `Backing`.
* `TypedOp.next` — the map: a put that the store below accepts replaces, a remove drops, and nothing
  else changes it.
* `TypedStore.Shows` — the operations answer from a map.
* `Tracks` — the invariant: what the store below holds was put and not removed, and what is in force is
  there.
* `typed_refines_map` — the result, and a run over a file store as a sample.

The iterator is the one operation that does not ask whether a decoding succeeded.  Where every key and
value round-trips it need not.
-/

set_option autoImplicit false

namespace MicroStore

/-! ## The other operations of `TypedStore.h`

Each encodes its arguments and passes them on. -/

namespace TypedStore

variable {κ υ : Type} (ty : TypedStore κ υ)

/-- `put`. -/
def put (now : UInt32) (key : κ) (value : υ) (ttl : UInt32) (priority : UInt8) : StoreM Bool := do
  let valid ← storeCall .isValid
  if !valid then pure false
  else storeCall (.put (ty.keyCodec.encode key) (ty.valueCodec.encode value) ttl now priority)

/-- `remove`. -/
def remove (key : κ) : StoreM Bool := do
  let valid ← storeCall .isValid
  if !valid then pure false else storeCall (.remove (ty.keyCodec.encode key))

/-- `exists`. -/
def «exists» (key : κ) : StoreM Bool := do
  let valid ← storeCall .isValid
  if !valid then pure false else storeCall (.exists (ty.keyCodec.encode key))

/-- `size`. -/
def size : StoreM Nat := do
  let valid ← storeCall .isValid
  if !valid then pure 0 else storeCall .size

end TypedStore

/-- The operations of a run.  `junk` is what the iterator's entry holds at the start. -/
inductive TypedOp (κ υ : Type)
  | put (key : κ) (value : υ) (ttl : UInt32) (priority : UInt8)
  | get (key : κ)
  | «exists» (key : κ)
  | remove (key : κ)
  | size
  | iterate (junk : κ × υ)

section typed

variable {κ υ σ ε : Type}

/-- Perform one operation. -/
def TypedStore.perform (ty : TypedStore κ υ) (now : UInt32) : TypedOp κ υ → StoreM Unit
  | .put key value ttl priority => do
    let _ ← ty.put now key value ttl priority
    pure ()
  | .get key => do
    let _ ← ty.get key
    pure ()
  | .exists key => do
    let _ ← ty.exists key
    pure ()
  | .remove key => do
    let _ ← ty.remove key
    pure ()
  | .size => do
    let _ ← TypedStore.size
    pure ()
  | .iterate junk => do
    let _ ← ty.iterate junk
    pure ()

/-- The puts in force after an operation, where the store below accepts these keys and values. -/
def TypedOp.next [DecidableEq κ] (ty : TypedStore κ υ) (accepts : Bytes → Bytes → Prop)
    [∀ k v, Decidable (accepts k v)] (puts : κ → Option (TieredPut υ)) (now : UInt32) :
    TypedOp κ υ → κ → Option (TieredPut υ)
  | .put key value ttl _ =>
    if accepts (ty.keyCodec.encode key) (ty.valueCodec.encode value) then
      Function.update puts key (some ⟨value, now, ttl⟩)
    else puts
  | .remove key => Function.update puts key none
  | .get _ | .exists _ | .size | .iterate _ => puts

/-- The put of the key, unless it has expired. -/
def inForce (puts : κ → Option (TieredPut υ)) (policy now : UInt32) (k : κ) : Option (TieredPut υ) :=
  (puts k).filter fun p => !decide (p.Over policy now)

theorem inForce_eq_some {puts : κ → Option (TieredPut υ)} {policy now : UInt32} {k : κ}
    {p : TieredPut υ} : inForce puts policy now k = some p ↔ puts k = some p ∧ ¬p.Over policy now := by
  rw [inForce, Option.filter_eq_some_iff, Bool.not_eq_true', decide_eq_false_iff_not]

namespace TypedStore

variable (B : Backing ε σ) (ty : TypedStore κ υ)

/-- The state operations lead to. -/
def run (s : σ) (ops : List (ε × TypedOp κ υ)) : σ :=
  ops.foldl (fun s op => (B.exec op.1 (ty.perform (B.time op.1) op.2) s).2) s

/-- What the clock says last. -/
def lastTime (now : UInt32) (ops : List (ε × TypedOp κ υ)) : UInt32 :=
  ops.foldl (fun _ op => B.time op.1) now

/-- The puts that are in force after the operations. -/
def putsAfter [DecidableEq κ] (accepts : Bytes → Bytes → Prop) [∀ k v, Decidable (accepts k v)]
    (ops : List (ε × TypedOp κ υ)) (puts : κ → Option (TieredPut υ)) : κ → Option (TieredPut υ) :=
  ops.foldl (fun puts op => op.2.next ty accepts puts (B.time op.1)) puts

/-- All calls of the run go well, and the clock does not go back. -/
def RunFine : UInt32 → List (ε × TypedOp κ υ) → σ → Prop
  | _, [], _ => True
  | now, (e, op) :: ops, s => now ≤ B.time e ∧ B.Fine e (ty.perform (B.time e) op) s ∧
    RunFine (B.time e) ops (B.exec e (ty.perform (B.time e) op) s).2

instance decidableRunFine (ops : List (ε × TypedOp κ υ)) (now : UInt32) (s : σ) :
    Decidable (RunFine B ty now ops s) := by
  induction ops generalizing now s with
  | nil => exact .isTrue trivial
  | cons op ops ih => exact @instDecidableAnd _ _ _ (@instDecidableAnd _ _ _ (ih _ _))

/-- The operations show these puts: a lookup finds the value that is in force, a put succeeds if the
store below accepts it, and every key in force is counted and yielded once, with its value. -/
structure Shows (accepts : Bytes → Bytes → Prop) (policy now : UInt32) (s : σ)
    (puts : κ → Option (TieredPut υ)) : Prop where
  /-- A put succeeds if the store below accepts the encoded key and value. -/
  put : ∀ e k v ttl priority, now ≤ B.time e → B.Fine e (ty.put (B.time e) k v ttl priority) s →
    ((B.exec e (ty.put (B.time e) k v ttl priority) s).1 = true ↔
      accepts (ty.keyCodec.encode k) (ty.valueCodec.encode v))
  /-- A lookup finds the value in force. -/
  get : ∀ e k, now ≤ B.time e → B.Fine e (ty.get k) s →
    (B.exec e (ty.get k) s).1 = (inForce puts policy (B.time e) k).map TieredPut.value
  /-- `exists` answers for the keys in force. -/
  «exists» : ∀ e k, now ≤ B.time e → B.Fine e (ty.exists k) s →
    (B.exec e (ty.exists k) s).1 = (inForce puts policy (B.time e) k).isSome
  /-- Every key in force is counted, and none that was not put. -/
  size : ∀ e, now ≤ B.time e → B.Fine e TypedStore.size s → ∃ ks : List κ, ks.Nodup ∧
    (∀ k ∈ ks, (puts k).isSome) ∧ (∀ k, (inForce puts policy (B.time e) k).isSome → k ∈ ks) ∧
    (B.exec e TypedStore.size s).1 = ks.length
  /-- Every key in force is yielded once, with its value. -/
  iterate : ∀ e junk, now ≤ B.time e → B.Fine e (ty.iterate junk) s →
    let es := (B.exec e (ty.iterate junk) s).1
    (es.map Prod.fst).Nodup ∧ (∀ x ∈ es, (puts x.1).map TieredPut.value = some x.2) ∧
      ∀ k p, inForce puts policy (B.time e) k = some p → (k, p.value) ∈ es

/-- Keys and values decode to themselves. -/
structure RoundTrips : Prop where
  /-- Keys decode to themselves. -/
  key : ∀ k, ty.keyCodec.decode (ty.keyCodec.encode k) = some k
  /-- Values decode to themselves. -/
  value : ∀ v, ty.valueCodec.decode (ty.valueCodec.encode v) = some v

/-- The record a put leaves in the store below. -/
def raw (p : TieredPut υ) : RawRecord := ⟨ty.valueCodec.encode p.value, p.ttl, p.time⟩

/-- The store below holds nothing but these puts, and those in force. -/
structure Tracks (policy now : UInt32) (puts : κ → Option (TieredPut υ)) (m : Holdings) : Prop where
  /-- What is there was put and not removed. -/
  le : ∀ b r, m b = some r → ∃ k p, puts k = some p ∧ b = ty.keyCodec.encode k ∧ r = ty.raw p
  /-- What is in force is there. -/
  keeps : ∀ k p, puts k = some p → ¬p.Over policy now → m (ty.keyCodec.encode k) = some (ty.raw p)

variable {B ty} {policy now : UInt32} {puts : κ → Option (TieredPut υ)} {m m' : Holdings}

/-- Different keys have different encodings. -/
theorem RoundTrips.inj (hty : ty.RoundTrips) {k k' : κ}
    (h : ty.keyCodec.encode k = ty.keyCodec.encode k') : k = k' := by
  have hk := hty.key k
  rw [h, hty.key] at hk
  exact (Option.some.inj hk).symm

/-! ## What the store below holds

How the invariant changes as time passes, as the store below forgets, and as a put or a remove goes
through. -/

/-- As time passes, more has expired. -/
theorem Tracks.later (h : ty.Tracks policy now puts m) {now' : UInt32} (hle : now ≤ now') :
    ty.Tracks policy now' puts m :=
  ⟨h.le, fun k p hp hno => h.keeps k p hp fun hover => hno (Expired.mono hover hle)⟩

/-- The store below may forget what has expired. -/
theorem Tracks.shrink (h : ty.Tracks policy now puts m) (hs : m.Shrinks policy False now m') :
    ty.Tracks policy now puts m' :=
  ⟨fun b r hr => h.le b r (hs.le b r hr),
    fun k p hp hno => hs.keeps not_false _ _ (h.keeps k p hp hno) hno⟩

/-- A change at one key. -/
theorem Tracks.update [DecidableEq κ] (hty : ty.RoundTrips) (h : ty.Tracks policy now puts m) (k : κ)
    (q : Option (TieredPut υ)) : ty.Tracks policy now (Function.update puts k q)
      (Function.update m (ty.keyCodec.encode k) (q.map ty.raw)) where
  le b r hr := by
    by_cases hb : b = ty.keyCodec.encode k
    · rw [hb, Function.update_self] at hr
      obtain ⟨p, hp, rfl⟩ := Option.map_eq_some_iff.1 hr
      exact ⟨k, p, by rw [Function.update_self, hp], hb, rfl⟩
    · rw [Function.update_of_ne hb] at hr
      obtain ⟨k', p, hp, rfl, rfl⟩ := h.le b r hr
      have hk' : k' ≠ k := fun he => hb (by rw [he])
      exact ⟨k', p, by rw [Function.update_of_ne hk', hp], rfl, rfl⟩
  keeps k' p hp hno := by
    by_cases hk' : k' = k
    · rw [hk', Function.update_self] at hp
      rw [hk', Function.update_self, hp]
      rfl
    · rw [Function.update_of_ne hk'] at hp
      rw [Function.update_of_ne fun he => hk' (hty.inj he)]
      exact h.keeps k' p hp hno

/-- The record of an encoded key is that of its put. -/
theorem Tracks.eq_raw (hty : ty.RoundTrips) (h : ty.Tracks policy now puts m) {k : κ} {r : RawRecord}
    (hr : m (ty.keyCodec.encode k) = some r) : ∃ p, puts k = some p ∧ r = ty.raw p := by
  obtain ⟨k', p, hp, he, rfl⟩ := h.le _ r hr
  rw [← hty.inj he] at hp
  exact ⟨p, hp, rfl⟩

/-- A lookup shows what is in force. -/
theorem Tracks.shown (hty : ty.RoundTrips) (h : ty.Tracks policy now puts m) (k : κ) :
    m.shown policy now (ty.keyCodec.encode k) = (inForce puts policy now k).map ty.raw := by
  ext r
  rw [Holdings.shown_eq_some, Option.map_eq_some_iff]
  constructor
  · rintro ⟨hr, hno⟩
    obtain ⟨p, hp, rfl⟩ := h.eq_raw hty hr
    exact ⟨p, inForce_eq_some.2 ⟨hp, hno⟩, rfl⟩
  · rintro ⟨p, hp, rfl⟩
    obtain ⟨hp, hno⟩ := inForce_eq_some.1 hp
    exact ⟨h.keeps k p hp hno, hno⟩

/-- The keys the store below holds. -/
theorem Tracks.keys (hty : ty.RoundTrips) (h : ty.Tracks policy now puts m) {bs : List Bytes}
    (hnodup : bs.Nodup) (hmem : ∀ b, b ∈ bs ↔ (m b).isSome) : ∃ ks : List κ, ks.Nodup ∧
      (∀ k ∈ ks, (puts k).isSome) ∧ (∀ k, (inForce puts policy now k).isSome → k ∈ ks) ∧
      bs.length = ks.length := by
  obtain ⟨ks, rfl⟩ : bs ∈ Set.range (List.map ty.keyCodec.encode) := by
    rw [Set.range_list_map]
    intro b hb
    obtain ⟨r, hr⟩ := Option.isSome_iff_exists.1 ((hmem b).1 hb)
    obtain ⟨k, -, -, hk, -⟩ := h.le b r hr
    exact ⟨k, hk.symm⟩
  refine ⟨ks, .of_map _ hnodup, fun k hk => ?_, fun k hk => ?_, List.length_map _⟩
  · obtain ⟨r, hr⟩ := Option.isSome_iff_exists.1 ((hmem _).1 (List.mem_map_of_mem hk))
    obtain ⟨p, hp, -⟩ := h.eq_raw hty hr
    rw [hp]
    rfl
  · obtain ⟨p, hp⟩ := Option.isSome_iff_exists.1 hk
    obtain ⟨hp, hno⟩ := inForce_eq_some.1 hp
    obtain ⟨k', hk', he⟩ := List.mem_map.1 ((hmem _).2 (by rw [h.keeps k p hp hno]; rfl))
    rwa [← hty.inj he]

section operations

variable {R : StoreRel σ} {accepts : Bytes → Bytes → Prop} {Rep : σ → Holdings → Prop} {s : σ} {k : κ}

/-- The state of the store below tracks the puts. -/
def Kept (ty : TypedStore κ υ) (policy now : UInt32) (Rep : σ → Holdings → Prop)
    (puts : κ → Option (TieredPut υ)) (s : σ) : Prop := ∃ m, Rep s m ∧ ty.Tracks policy now puts m

/-! ## What the operations do

One lemma for each operation; each keeps the invariant and answers from the map. -/

theorem Kept.wp_put [DecidableEq κ] [∀ k v, Decidable (accepts k v)] (hty : ty.RoundTrips)
    (hR : R.Lawful policy False accepts now Rep) (h : ty.Kept policy now Rep puts s) {v : υ}
    {ttl : UInt32} {priority : UInt8} : R.wp (ty.put now k v ttl priority) (fun ok s' =>
      (ok = true ↔ accepts (ty.keyCodec.encode k) (ty.valueCodec.encode v)) ∧
        ty.Kept policy now Rep ((TypedOp.put k v ttl priority).next ty accepts puts now) s') s := by
  obtain ⟨m, hm, htr⟩ := h
  refine StoreRel.wp_call fun valid s₁ hv => ?_
  obtain ⟨rfl, hm₁⟩ := hR.isValid hm hv
  refine ⟨trivial, fun ok s' hok => ?_⟩
  obtain ⟨hiff, m', hm', hs⟩ := hR.put hm₁ hok
  refine ⟨hiff, m', hm', ?_⟩
  rw [TypedOp.next]
  by_cases ha : accepts (ty.keyCodec.encode k) (ty.valueCodec.encode v)
  · rw [if_pos (hiff.2 ha)] at hs
    rw [if_pos ha]
    exact (htr.update hty k (some ⟨v, now, ttl⟩)).shrink hs
  · rw [if_neg (mt hiff.1 ha)] at hs
    rw [if_neg ha]
    exact htr.shrink hs

theorem Kept.wp_get (hty : ty.RoundTrips) (hR : R.Lawful policy False accepts now Rep)
    (h : ty.Kept policy now Rep puts s) : R.wp (ty.get k) (fun v s' =>
      v = (inForce puts policy now k).map TieredPut.value ∧ ty.Kept policy now Rep puts s') s := by
  obtain ⟨m, hm, htr⟩ := h
  refine StoreRel.wp_call fun valid s₁ hv => ?_
  obtain ⟨rfl, hm₁⟩ := hR.isValid hm hv
  refine StoreRel.wp_call fun raw s' hraw => ?_
  obtain ⟨hval, m', hm', hs⟩ := hR.get hm₁ hraw
  rw [htr.shown hty, Option.map_map] at hval
  cases hp : inForce puts policy now k with
  | none =>
    rw [hp] at hval
    rw [hval]
    exact ⟨rfl, m', hm', htr.shrink hs⟩
  | some p =>
    rw [hp] at hval
    rw [hval]
    exact ⟨hty.value p.value, m', hm', htr.shrink hs⟩

theorem Kept.wp_exists (hty : ty.RoundTrips) (hR : R.Lawful policy False accepts now Rep)
    (h : ty.Kept policy now Rep puts s) : R.wp (ty.exists k) (fun found s' =>
      found = (inForce puts policy now k).isSome ∧ ty.Kept policy now Rep puts s') s := by
  obtain ⟨m, hm, htr⟩ := h
  refine StoreRel.wp_call fun valid s₁ hv => ?_
  obtain ⟨rfl, hm₁⟩ := hR.isValid hm hv
  refine ⟨trivial, fun found s' hfound => ?_⟩
  obtain ⟨hval, m', hm', hs, -⟩ := hR.exists hm₁ hfound
  rw [htr.shown hty, Option.isSome_map] at hval
  exact ⟨hval, m', hm', htr.shrink hs⟩

theorem Kept.wp_remove [DecidableEq κ] (hty : ty.RoundTrips) (hR : R.Lawful policy False accepts now Rep)
    (h : ty.Kept policy now Rep puts s) : R.wp (ty.remove k) (fun _ s' =>
      ty.Kept policy now Rep (Function.update puts k none) s') s := by
  obtain ⟨m, hm, htr⟩ := h
  refine StoreRel.wp_call fun valid s₁ hv => ?_
  obtain ⟨rfl, hm₁⟩ := hR.isValid hm hv
  refine ⟨trivial, fun ok s' hok => ?_⟩
  obtain ⟨m', hm', hs⟩ := hR.remove hm₁ hok
  exact ⟨m', hm', (htr.update hty k none).shrink hs⟩

theorem Kept.wp_size (hty : ty.RoundTrips) (hR : R.Lawful policy False accepts now Rep)
    (h : ty.Kept policy now Rep puts s) : R.wp (TypedStore.size) (fun n s' =>
      (∃ ks : List κ, ks.Nodup ∧ (∀ k ∈ ks, (puts k).isSome) ∧
        (∀ k, (inForce puts policy now k).isSome → k ∈ ks) ∧ n = ks.length) ∧
      ty.Kept policy now Rep puts s') s := by
  obtain ⟨m, hm, htr⟩ := h
  refine StoreRel.wp_call fun valid s₁ hv => ?_
  obtain ⟨rfl, hm₁⟩ := hR.isValid hm hv
  refine ⟨trivial, fun n s' hn => ?_⟩
  obtain ⟨hm', bs, hnodup, hmem, rfl⟩ := hR.size hm₁ hn
  exact ⟨htr.keys hty hnodup hmem, m, hm', htr⟩

/-- A record that decodes is among the entries. -/
theorem mem_loadLoop_of_decode {raws : List (Bytes × Bytes)} {current : κ × υ} {raw : Bytes × Bytes}
    {v : υ} (hraw : raw ∈ raws) (hk : ty.keyCodec.decode raw.1 = some k)
    (hv : ty.valueCodec.decode raw.2 = some v) : (k, v) ∈ ty.loadLoop current raws := by
  induction raws generalizing current with
  | nil => cases hraw
  | cons raw' raws ih =>
    rw [loadLoop]
    rcases List.mem_cons.1 hraw with rfl | hraw
    · rw [load_eq hk hv]
      exact List.mem_cons_self
    · exact List.mem_cons_of_mem _ (ih hraw)

theorem Kept.wp_iterate (hty : ty.RoundTrips) (hR : R.Lawful policy False accepts now Rep)
    (h : ty.Kept policy now Rep puts s) {junk : κ × υ} : R.wp (ty.iterate junk) (fun es s' =>
      ((es.map Prod.fst).Nodup ∧ (∀ x ∈ es, (puts x.1).map TieredPut.value = some x.2) ∧
        ∀ k p, inForce puts policy now k = some p → (k, p.value) ∈ es) ∧
      ty.Kept policy now Rep puts s') s := by
  obtain ⟨m, hm, htr⟩ := h
  refine StoreRel.wp_call fun (raws : List (Bytes × Bytes)) s' hraws => ?_
  obtain ⟨hm', hnodup, hmem⟩ := hR.iterate hm hraws
  have hdec : ty.Decodes raws := by
    intro raw hraw
    obtain ⟨r, hr, hval⟩ := Option.map_eq_some_iff.1 ((hmem raw.1 raw.2).1 hraw)
    obtain ⟨k, p, -, hk, rfl⟩ := htr.le _ r hr
    refine ⟨⟨k, hk ▸ hty.key k, hk.symm⟩, ?_⟩
    rw [← hval, TypedStore.raw, hty.value]
    rfl
  refine ⟨⟨?_, fun x hx => ?_, fun k p hp => ?_⟩, m, hm', htr⟩
  · refine List.Nodup.of_map ty.keyCodec.encode ?_
    rw [List.map_map]
    exact (map_encode_loadLoop hdec).symm ▸ hnodup
  · obtain ⟨raw, hraw, hk, hv⟩ := of_mem_loadLoop hdec hx
    obtain ⟨r, hr, hval⟩ := Option.map_eq_some_iff.1 ((hmem raw.1 raw.2).1 hraw)
    rw [← hk] at hr
    obtain ⟨p, hp, rfl⟩ := htr.eq_raw hty hr
    rw [← hval, TypedStore.raw, hty.value] at hv
    rw [hp, Option.map_some, Option.some.inj hv]
  · obtain ⟨hp, hno⟩ := inForce_eq_some.1 hp
    have hraw : (ty.keyCodec.encode k, ty.valueCodec.encode p.value) ∈ raws := by
      rw [hmem, htr.keeps k p hp hno]
      rfl
    exact mem_loadLoop_of_decode hraw (hty.key k) (hty.value p.value)

/-- One operation. -/
theorem Kept.wp_perform [DecidableEq κ] [∀ k v, Decidable (accepts k v)] (hty : ty.RoundTrips)
    (hR : R.Lawful policy False accepts now Rep) (h : ty.Kept policy now Rep puts s)
    {op : TypedOp κ υ} : R.wp (ty.perform now op)
      (fun _ s' => ty.Kept policy now Rep (op.next ty accepts puts now) s') s := by
  cases op with
  | put => exact StoreRel.wp_seq (h.wp_put hty hR) fun _ _ hx => hx.2
  | get => exact StoreRel.wp_seq (h.wp_get hty hR) fun _ _ hx => hx.2
  | «exists» => exact StoreRel.wp_seq (h.wp_exists hty hR) fun _ _ hx => hx.2
  | remove => exact StoreRel.wp_seq (h.wp_remove hty hR) fun _ _ hx => hx
  | size => exact StoreRel.wp_seq (h.wp_size hty hR) fun _ _ hx => hx.2
  | iterate => exact StoreRel.wp_seq (h.wp_iterate hty hR) fun _ _ hx => hx.2

end operations

section runs

variable {accepts : Bytes → Bytes → Prop} {Rep : σ → Holdings → Prop} {s : σ}

/-- As time passes the invariant holds on. -/
theorem Kept.later (h : ty.Kept policy now Rep puts s) {now' : UInt32} (hle : now ≤ now') :
    ty.Kept policy now' Rep puts s := by
  obtain ⟨m, hm, htr⟩ := h
  exact ⟨m, hm, htr.later hle⟩

/-- **A run** keeps track of the puts. -/
theorem Kept.run [DecidableEq κ] [∀ k v, Decidable (accepts k v)] (hty : ty.RoundTrips)
    (hB : ∀ e, (B.rel e).Lawful policy False accepts (B.time e) Rep) {ops : List (ε × TypedOp κ υ)}
    (h : ty.Kept policy now Rep puts s) (hfine : ty.RunFine B now ops s) :
    ty.Kept policy (lastTime B now ops) Rep (ty.putsAfter B accepts ops puts) (ty.run B s ops) := by
  induction ops generalizing now puts s with
  | nil => exact h
  | cons op ops ih =>
    obtain ⟨e, op⟩ := op
    obtain ⟨hle, hstep, hrest⟩ := hfine
    exact ih (Backing.exec_of_wp ((h.later hle).wp_perform hty (hB e)) hstep) hrest

/-- A store that tracks the puts shows them. -/
theorem Kept.shows [DecidableEq κ] [∀ k v, Decidable (accepts k v)] (hty : ty.RoundTrips)
    (hB : ∀ e, (B.rel e).Lawful policy False accepts (B.time e) Rep)
    (h : ty.Kept policy now Rep puts s) : ty.Shows B accepts policy now s puts where
  put e _ _ _ _ hle hfine :=
    (Backing.exec_of_wp ((h.later hle).wp_put hty (hB e)) hfine).1
  get e _ hle hfine := (Backing.exec_of_wp ((h.later hle).wp_get hty (hB e)) hfine).1
  «exists» e _ hle hfine := (Backing.exec_of_wp ((h.later hle).wp_exists hty (hB e)) hfine).1
  size e hle hfine := (Backing.exec_of_wp ((h.later hle).wp_size hty (hB e)) hfine).1
  iterate e _ hle hfine := (Backing.exec_of_wp ((h.later hle).wp_iterate hty (hB e)) hfine).1

end runs

end TypedStore

end typed

/-- **A typed store refines a map** of puts with their times and TTLs: over a lawful store below that
does not evict, with codecs that decode what they encode, in every run whose clock does not go back. -/
theorem typed_refines_map {κ υ σ ε : Type} [DecidableEq κ] (ty : TypedStore κ υ) (hty : ty.RoundTrips)
    (B : Backing ε σ) (policy : UInt32) (accepts : Bytes → Bytes → Prop)
    [∀ k v, Decidable (accepts k v)] (Rep : σ → Holdings → Prop)
    (hB : ∀ e, (B.rel e).Lawful policy False accepts (B.time e) Rep) (s : σ)
    (hs : Rep s fun _ => none) (ops : List (ε × TypedOp κ υ)) (hfine : ty.RunFine B 0 ops s) :
    ty.Shows B accepts policy (TypedStore.lastTime B 0 ops) (ty.run B s ops)
      (ty.putsAfter B accepts ops fun _ => none) := by
  have htr : ty.Tracks policy 0 (fun _ => none) fun _ => none :=
    ⟨fun _ _ hr => (by cases hr), fun _ _ hp => (by cases hp)⟩
  have h₀ : ty.Kept policy 0 Rep (fun _ => none) s := ⟨_, hs, htr⟩
  exact (h₀.run hty hB hfine).shows hty hB

/-- `Codec<std::string>` and `Codec<std::vector<uint8_t>>`. -/
def bytesCodec : OutCodec Bytes := ⟨⟨id, some⟩, fun _ out => out⟩

/-- Strings under strings. -/
def textStore : TypedStore Bytes Bytes := ⟨bytesCodec, bytesCodec⟩

/-- Its codecs do nothing. -/
theorem textStore_roundTrips : textStore.RoundTrips := ⟨fun _ => rfl, fun _ => rfl⟩

/-- Three strings, of which one expires, one is replaced and one is removed. -/
def textOperations : List (Moment × TypedOp Bytes Bytes) :=
  [(.at 1, .put [97] [1, 2] 5 0), (.at 2, .put [98, 99] [3] 0 0), (.at 3, .put [100] [] 0 0),
    (.at 4, .put [98, 99] [4] 0 0), (.at 5, .remove [100]), (.at 9, .get [97]), (.at 9, .iterate ([], []))]

/-- They are put into a file store. -/
theorem typed_refines_map_sample :
    textStore.Shows (fileBacking sampleSetup)
      (fun k v => k.length ≤ maxKeyLen ∧ v.length ≤ maxValueLen) 0
      (TypedStore.lastTime (fileBacking sampleSetup) 0 textOperations)
      (textStore.run (fileBacking sampleSetup) sampleOpened textOperations)
      (textStore.putsAfter (fileBacking sampleSetup)
        (fun k v => k.length ≤ maxKeyLen ∧ v.length ≤ maxValueLen) textOperations fun _ => none) :=
  typed_refines_map textStore textStore_roundTrips (fileBacking sampleSetup) 0 _ _
    (fileBacking_keeps (by decide) rfl) sampleOpened sampleSetup_starts.fileHolds textOperations
    (by decide +kernel)

end MicroStore
