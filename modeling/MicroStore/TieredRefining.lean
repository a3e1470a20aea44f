import MicroStore.TieredFile

/-!
# A tiered store is a map

Where no put has a TTL, a tiered store over a lawful store is the map of what was put last, whatever is
cached, changed, evicted or flushed on the way (`tiered_refines_map`).

## What is here

* `TieredOp.mapNext`, `TieredOp.mapAfter` — the map, as a function of the operations alone.
* `TieredState.Shows` — the operations answer from a map: `get` and `exists` at each key, `size` and the
  iterator for all keys, and a `sync` that returns true leaves the map in the store below.
* `timelessly` — the aspect of the invariant that is kept track of: nothing ever expires.
* `Kept.shows`, `Kept.run_map` — from the invariant to the map.
* `tiered_refines_map` — the result, for any lawful store below; the sample runs over a file store.

The map does not occur in the model of the operations.  That they refine it is what a user of the class
relies on.
-/

set_option autoImplicit false

namespace MicroStore

section map

variable {κ υ σ ε : Type} [DecidableEq κ] [Inhabited κ] [Inhabited υ]

/-- What an operation makes of the map. -/
def TieredOp.mapNext (m : κ → Option υ) : TieredOp κ υ → κ → Option υ
  | .put key value _ _ => Function.update m key (some value)
  | .remove key => Function.update m key none
  | .clear => fun _ => none
  | .get _ | .exists _ | .size | .iterate | .sync => m

/-- The map after a run. -/
def TieredOp.mapAfter (ops : List (ε × TieredOp κ υ)) : κ → Option υ :=
  ops.foldl (fun m op => op.2.mapNext m) fun _ => none

/-- The operation puts without a TTL, if it is a put. -/
def TieredOp.NoTtl : TieredOp κ υ → Prop
  | .put _ _ ttl _ => ttl = 0
  | .get _ | .exists _ | .remove _ | .size | .iterate | .sync | .clear => True

instance : (op : TieredOp κ υ) → Decidable op.NoTtl
  | .put _ _ ttl _ => inferInstanceAs (Decidable (ttl = 0))
  | .get _ | .exists _ | .remove _ | .size | .iterate | .sync | .clear => isTrue trivial

/-- The operations show the map `m`: a lookup finds what is in it, the size is the number of its keys,
an iteration yields each of them once, and after a `sync` that succeeds the store below is the map. -/
structure TieredState.Shows (B : Backing ε σ) (ty : Typed κ υ) (x : TieredState κ υ σ)
    (m : κ → Option υ) : Prop where
  /-- A lookup finds the value of the map. -/
  get : ∀ e k, B.Fine e (Tiered.get ty (B.time e) x.tier k) x.store →
    (B.exec e (Tiered.get ty (B.time e) x.tier k) x.store).1.1 = m k
  /-- `exists` answers for the keys of the map. -/
  «exists» : ∀ e k, B.Fine e (Tiered.exists ty (B.time e) x.tier k) x.store →
    (B.exec e (Tiered.exists ty (B.time e) x.tier k) x.store).1.1 = (m k).isSome
  /-- They are counted. -/
  size : ∀ e, B.Fine e (Tiered.size ty x.tier) x.store → ∃ ks : List κ, ks.Nodup ∧
    (∀ k, k ∈ ks ↔ (m k).isSome) ∧ (B.exec e (Tiered.size ty x.tier) x.store).1 = ks.length
  /-- They are yielded once, with their values. -/
  iterate : ∀ e, B.Fine e (Tiered.iterate ty (B.time e) x.tier) x.store →
    let es := (B.exec e (Tiered.iterate ty (B.time e) x.tier) x.store).1.1
    (es.map Prod.fst).Nodup ∧ ∀ k v, (k, v) ∈ es ↔ m k = some v
  /-- After a `sync` that returns true the store below has the map and nothing else. -/
  sync : ∀ e, B.Fine e (Tiered.sync ty (B.time e) x.tier) x.store →
    let y := B.exec e (Tiered.sync ty (B.time e) x.tier) x.store
    y.1.1 = true → (∀ e' k, B.fine e' (.get (ty.keyCodec.encode k)) y.2 →
        B.get e' (ty.keyCodec.encode k) y.2 = (m k).map ty.valueCodec.encode) ∧
      ∀ e', B.fine e' .iterate y.2 →
        let raws : List (Bytes × Bytes) := (B.handle e' .iterate y.2).1
        (raws.map Prod.fst).Nodup ∧ ∀ raw, raw ∈ raws ↔
          ∃ k v, m k = some v ∧ raw = (ty.keyCodec.encode k, ty.valueCodec.encode v)

/-- Only that nothing ever expires is kept track of besides. -/
def timelessly : Tiered.Aspects := ⟨False, False, True⟩

variable {B : Backing ε σ} {ty : Typed κ υ} {accepts : Bytes → Bytes → Prop} {Rep : σ → Holdings → Prop}
  {x : TieredState κ υ σ} {e : ε} {now : UInt32}

/-- In a timeless run the time does not matter. -/
theorem TieredState.Kept.any (h : x.Kept ty 0 timelessly now Rep) (now' : UInt32) :
    x.Kept ty 0 timelessly now' Rep :=
  Tiered.Kept.later h not_false (.inr trivial)

omit [Inhabited υ] in
/-- A lookup that succeeds or not tells whether there is a put. -/
theorem Tiered.Sees.timeless {q : Option (TieredPut υ)} {found : Bool}
    (h : Tiered.Sees 0 now timelessly q found) (hq : ∀ p, q = some p → p.ttl = 0) :
    found = q.isSome := by
  cases hf : found with
  | true =>
    obtain ⟨p, hp, -⟩ := h.yes hf
    rw [hp]
    rfl
  | false =>
    cases hq' : q with
    | none => rfl
    | some p =>
      have hover := h.no hf p hq'
      rw [TieredPut.Over, hq p hq'] at hover
      exact absurd hover TieredPut.not_expired_zero

/-- No put in force has a TTL. -/
theorem TieredState.Kept.ttl_eq (h : x.Kept ty 0 timelessly now Rep) {k : κ} {p : TieredPut υ}
    (hp : x.puts k = some p) : p.ttl = 0 := by
  obtain ⟨m, -, htr⟩ := h.traces
  exact (((htr.placed k).timeless trivial).1 p hp).1

/-- A tiered store that keeps track of the puts shows them. -/
theorem TieredState.Kept.shows (hty : Tiered.RoundTrips ty)
    (hB : ∀ e, (B.rel e).Lawful 0 False accepts (B.time e) Rep) (h : x.Kept ty 0 timelessly now Rep) :
    x.Shows B ty fun k => (x.puts k).map TieredPut.value where
  get e k hfine := by
    have hget := Backing.exec_of_wp ((h.any (B.time e)).wp_get hty (hB e)) hfine
    obtain ⟨y, hy⟩ : ∃ y, (B.exec e (Tiered.get ty (B.time e) x.tier k) x.store).1.1 = y := ⟨_, rfl⟩
    rw [hy] at hget ⊢
    obtain ⟨-, hsees, hval⟩ := hget
    cases hv : y with
    | some v =>
      obtain ⟨p, hp, rfl⟩ := hval v hv
      rw [hp]
      rfl
    | none =>
      have hnone := hsees.timeless fun p hp => h.ttl_eq hp
      rw [hv, eq_comm, Option.isSome_none, Option.isSome_eq_false_iff, Option.isNone_iff_eq_none] at hnone
      rw [hnone]
      rfl
  «exists» e k hfine := by
    have hex := Backing.exec_of_wp ((h.any (B.time e)).wp_exists hty (hB e)) hfine
    rw [hex.2.timeless fun p hp => h.ttl_eq hp, Option.isSome_map]
  size e hfine := by
    obtain ⟨ks, hnodup, hmem, hsize⟩ :=
      Backing.exec_of_wp ((h.any (B.time e)).wp_size hty (hB e) trivial) hfine
    exact ⟨ks, hnodup, fun k => by rw [hmem, Option.isSome_map], hsize⟩
  iterate e hfine := Backing.exec_of_wp ((h.any (B.time e)).wp_iterate hty (hB e) trivial) hfine
  sync e hfine := by
    intro y hok
    obtain ⟨hkept, hclean⟩ :=
      Backing.exec_of_wp ((h.any (B.time e)).wp_sync hty (hB e) not_false (.inl trivial)) hfine
    have hkept : Tiered.Kept ty 0 timelessly (B.time e) Rep x.puts y.1.2 y.2 := hkept
    have hclean (k : κ) (sl : Slot κ υ) (hsl : Tiered.cell ty y.1.2 k = some sl) : sl.dirty = false := by
      obtain ⟨i, hv, -, rfl⟩ := hkept.wf.cell_eq_some.1 hsl
      exact hclean hok i hv
    obtain ⟨m, hm, htr⟩ := hkept.traces
    have hholds := htr.holdings_of_clean trivial hclean
    refine ⟨fun e' k hfine' => ?_, fun e' hfine' => ?_⟩
    · obtain ⟨hr, -⟩ := (hB e').get hm ⟨hfine', rfl⟩
      rw [Backing.get, hr, htr.shown_timeless trivial, hholds, Option.map_map]
      rfl
    · obtain ⟨-, hnodup, hmem⟩ := (hB e').iterate hm ⟨hfine', rfl⟩
      refine ⟨hnodup, fun raw => ?_⟩
      rw [hmem raw.1 raw.2]
      constructor
      · intro hv
        obtain ⟨r, hr, -⟩ := Option.map_eq_some_iff.1 hv
        obtain ⟨k, hk⟩ := htr.keys raw.1 (by rw [hr]; rfl)
        rw [hk, hholds] at hv
        obtain ⟨p, hp, hv⟩ := Option.map_eq_some_iff.1 hv
        refine ⟨k, p.value, ?_, Prod.ext hk hv.symm⟩
        rw [hp, Option.map_some]
      · rintro ⟨k, v, hv, rfl⟩
        obtain ⟨p, hp, rfl⟩ := Option.map_eq_some_iff.1 hv
        rw [hholds, hp, Option.map_some]

/-- One operation without a TTL changes the map as it should. -/
theorem TieredState.Kept.step_map (hty : Tiered.RoundTrips ty) (hsize : 0 < ty.cacheSize.toNat)
    (haccepts : ∀ k v, accepts (ty.keyCodec.encode k) (ty.valueCodec.encode v))
    (hR : (B.rel e).Lawful 0 False accepts (B.time e) Rep) (h : x.Kept ty 0 timelessly (B.time e) Rep)
    {op : TieredOp κ υ} (httl : op.NoTtl) (hfine : x.Fine B ty e op) :
    (fun k => ((x.step B ty e op).puts k).map TieredPut.value)
      = op.mapNext fun k => (x.puts k).map TieredPut.value := by
  cases op with
  | put k v ttl priority =>
    have hfit : TieredPut.Fits 0 ⟨v, B.time e, ttl⟩ := .inl httl
    obtain ⟨-, hok⟩ := Backing.exec_of_wp
      (h.wp_put hty hR not_false hfit fun _ => ⟨httl, rfl⟩) hfine
    have hok : (B.exec e (Tiered.perform ty (B.time e) x.tier (.put k v ttl priority)) x.store).1.1 = true :=
      hok haccepts hsize
    rw [TieredState.step, hok, TieredOp.next, if_pos rfl]
    exact Function.comp_update (Option.map TieredPut.value) x.puts k (some ⟨v, B.time e, ttl⟩)
  | remove k => exact Function.comp_update (Option.map TieredPut.value) x.puts k none
  | clear | get | «exists» | size | iterate | sync => rfl

omit [Inhabited κ] [Inhabited υ] in
/-- What a timeless run demands is that there are no TTLs. -/
theorem TieredState.meets_timeless {op : TieredOp κ υ} (httl : op.NoTtl) :
    x.Meets B ty 0 timelessly e op where
  fits := by
    cases op with
    | put k v ttl priority => exact .inl httl
    | get | «exists» | remove | size | iterate | sync | clear => trivial
  finds := .inl trivial
  keeps := nofun
  timeless _ := ⟨rfl, fun k v ttl priority he => by
    rw [he] at httl
    exact httl⟩

/-- A run without TTLs keeps track of the puts and changes the map as it should. -/
theorem TieredState.Kept.run_map (hty : Tiered.RoundTrips ty) (hsize : 0 < ty.cacheSize.toNat)
    (haccepts : ∀ k v, accepts (ty.keyCodec.encode k) (ty.valueCodec.encode v))
    (hB : ∀ e, (B.rel e).Lawful 0 False accepts (B.time e) Rep) {ops : List (ε × TieredOp κ υ)}
    (h : x.Kept ty 0 timelessly now Rep) (httl : ∀ op ∈ ops, op.2.NoTtl)
    (hfine : All B ty (fun x e op => x.Fine B ty e op) ops x) :
    ∃ now', (x.run B ty ops).Kept ty 0 timelessly now' Rep ∧
      (fun k => ((x.run B ty ops).puts k).map TieredPut.value)
        = ops.foldl (fun m op => op.2.mapNext m) fun k => (x.puts k).map TieredPut.value := by
  induction ops generalizing x now with
  | nil => exact ⟨now, h, rfl⟩
  | cons op ops ih =>
    obtain ⟨e, op⟩ := op
    have hop := httl _ List.mem_cons_self
    have hstep := (h.any (B.time e)).step hty (hB e) not_false (meets_timeless hop) hfine.1
    obtain ⟨now', hrun, hmap⟩ := ih hstep (fun op' h' => httl op' (List.mem_cons_of_mem _ h')) hfine.2
    refine ⟨now', hrun, ?_⟩
    rw [(h.any (B.time e)).step_map hty hsize haccepts (hB e) hop hfine.1] at hmap
    exact hmap

end map

/-- **A tiered store refines a map**: over a lawful store below that does not evict, with codecs that
decode what they encode, a cache of at least one slot and any hash, every run of operations without
TTLs shows the map of what was put last. -/
theorem tiered_refines_map {κ υ σ ε : Type} [DecidableEq κ] [Inhabited κ] [Inhabited υ]
    (ty : Typed κ υ) (hty : Tiered.RoundTrips ty) (hsize : 0 < ty.cacheSize.toNat)
    (B : Backing ε σ) (accepts : Bytes → Bytes → Prop) (Rep : σ → Holdings → Prop)
    (hB : ∀ e, (B.rel e).Lawful 0 False accepts (B.time e) Rep)
    (haccepts : ∀ k v, accepts (ty.keyCodec.encode k) (ty.valueCodec.encode v)) (s : σ)
    (hs : Rep s fun _ => none) (ops : List (ε × TieredOp κ υ)) (httl : ∀ op ∈ ops, op.2.NoTtl)
    (hfine : TieredState.All B ty (fun x e op => x.Fine B ty e op) ops (.start s)) :
    ((TieredState.start s).run B ty ops).Shows B ty (TieredOp.mapAfter ops) := by
  have h₀ : (TieredState.start s : TieredState κ υ σ).Kept ty 0 timelessly 0 Rep := Tiered.kept_new hs
  obtain ⟨now, h, hmap⟩ := h₀.run_map hty hsize haccepts hB httl hfine
  rw [TieredOp.mapAfter]
  have hshows := h.shows hty hB
  rw [hmap] at hshows
  exact hshows

/-- Two keys share one slot, and the first is read back from the store below. -/
theorem tiered_refines_map_sample :
    let ops : List (Moment × TieredOp UInt8 UInt8) :=
      [(.at 0, .put 1 10 0 0), (.at 1, .put 2 20 0 0), (.at 2, .get 1), (.at 3, .sync)]
    ((TieredState.start sampleOpened).run (fileBacking sampleSetup) byteTyped ops).Shows
      (fileBacking sampleSetup) byteTyped (TieredOp.mapAfter ops) :=
  tiered_refines_map byteTyped byteTyped_roundTrips (by decide) (fileBacking sampleSetup) _ _
    (fileBacking_keeps (by decide) rfl) (fun _ _ => ⟨show 1 ≤ maxKeyLen by decide, show 1 ≤ maxValueLen by decide⟩) sampleOpened
    sampleSetup_starts.fileHolds _ (by decide) (by decide +kernel)

end MicroStore
