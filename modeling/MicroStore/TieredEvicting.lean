import MicroStore.TieredRefining

/-!
# A tiered store over a store that evicts

A store below with a limit evicts keys that the tiered store still caches as being there.  `exists` goes
by the slot, `size` and the iterator by the store below, so they disagree (`views_disagree`), and they
agree exactly where every slot that says its key is in the store below is right (`views_agree_iff`).

## What is here

* `Tiered.Flags` — what stays true of the slots over a store that evicts: a slot that says its key is
  not in the store below is right.  The converse is what eviction breaks.
* `TieredState.ViewsAgree` — `exists`, `size` and the iterator agree on the keys.
* `TieredState.FlagsRight` — the flags are right, as a condition on the slots and the store below.
* `flagsRight_iff`, `viewsAgree_iff` — the condition in terms of the invariant, and that it is exact.
* `flagged_run` — every run over a file store keeps the invariant, with a limit or without.
* `views_agree_iff` — the result, in every state that a run leads to.

Nothing expires here, so that eviction is the only reason for a key to go.
-/

set_option autoImplicit false

namespace MicroStore

namespace Tiered

section flags

variable {κ υ σ : Type} [DecidableEq κ] [Inhabited κ] [Inhabited υ]

/-- Nothing in a slot expires, a slot that says its key is not in the store below is right, and the store
below has only what can be decoded. -/
structure Flags (ty : Typed κ υ) (c : κ → Option (Slot κ υ)) (m : Holdings) : Prop where
  /-- Nothing expires. -/
  forever : ∀ k sl, c k = some sl → sl.expiresAt = 0
  /-- A key that is said not to be in the store below is not. -/
  fresh : ∀ k sl, c k = some sl → sl.inL2 = false → m (ty.keyCodec.encode k) = none
  /-- The store below has no keys but encoded ones. -/
  keys : ∀ raw, (m raw).isSome → ∃ k, raw = ty.keyCodec.encode k
  /-- It has no values but encoded ones. -/
  values : ∀ raw r, m raw = some r → ∃ v, r.value = ty.valueCodec.encode v

variable {ty : Typed κ υ} {R : StoreRel σ} {policy now : UInt32} {evicts : Prop}
  {accepts : Bytes → Bytes → Prop} {Rep : σ → Holdings → Prop} {c : κ → Option (Slot κ υ)}
  {m m' : Holdings} {t : Tiered κ υ} {s : σ}

omit [DecidableEq κ] [Inhabited κ] [Inhabited υ] in
/-- No slot has expired. -/
theorem Flags.not_expired (h : Flags ty c m) {k : κ} {sl : Slot κ υ} (hk : c k = some sl) :
    sl.isExpired now = false := by
  rw [Slot.isExpired, h.forever k sl hk]
  exact decide_eq_false fun he => he.1 rfl

omit [DecidableEq κ] [Inhabited κ] [Inhabited υ] in
/-- The store below forgets something. -/
theorem Flags.le (h : Flags ty c m) (hle : ∀ raw r, m' raw = some r → m raw = some r) :
    Flags ty c m' where
  forever := h.forever
  fresh k sl hk hin := by
    cases hd : m' (ty.keyCodec.encode k) with
    | none => rfl
    | some r => cases (h.fresh k sl hk hin).symm.trans (hle _ r hd)
  keys raw hraw := by
    obtain ⟨r, hr⟩ := Option.isSome_iff_exists.1 hraw
    exact h.keys raw (Option.isSome_iff_exists.2 ⟨r, hle raw r hr⟩)
  values raw r hr := h.values raw r (hle raw r hr)

omit [Inhabited κ] [Inhabited υ] in
/-- A slot changes. -/
theorem Flags.update (h : Flags ty c m) {k : κ} {o : Option (Slot κ υ)}
    (ho : ∀ sl, o = some sl → sl.expiresAt = 0 ∧
      (sl.inL2 = false → m (ty.keyCodec.encode k) = none)) : Flags ty (Function.update c k o) m where
  forever k' sl hk := by
    by_cases he : k' = k
    · rw [he, Function.update_self] at hk
      exact (ho sl hk).1
    · rw [Function.update_of_ne he] at hk
      exact h.forever k' sl hk
  fresh k' sl hk hin := by
    by_cases he : k' = k
    · rw [he, Function.update_self] at hk
      exact he ▸ (ho sl hk).2 hin
    · rw [Function.update_of_ne he] at hk
      exact h.fresh k' sl hk hin
  keys := h.keys
  values := h.values

omit [Inhabited κ] [Inhabited υ] in
/-- A slot is flushed. -/
theorem Flags.flush (hty : RoundTrips ty) (h : Flags ty c m) {k : κ} {sl : Slot κ υ}
    (hk : c k = some sl) {ttl ts : UInt32} : Flags ty (Function.update c k (some sl.flushed))
      (Function.update m (ty.keyCodec.encode k) (some ⟨ty.valueCodec.encode sl.value, ttl, ts⟩)) where
  forever k' sl' hk' := by
    by_cases he : k' = k
    · rw [he, Function.update_self] at hk'
      obtain rfl := Option.some.inj hk'
      exact h.forever k sl hk
    · rw [Function.update_of_ne he] at hk'
      exact h.forever k' sl' hk'
  fresh k' sl' hk' hin := by
    by_cases he : k' = k
    · rw [he, Function.update_self] at hk'
      obtain rfl := Option.some.inj hk'
      cases hin
    · rw [Function.update_of_ne he] at hk'
      rw [Function.update_of_ne fun hinj => he (hty.inj hinj)]
      exact h.fresh k' sl' hk' hin
  keys raw hraw := by
    by_cases he : raw = ty.keyCodec.encode k
    · exact ⟨k, he⟩
    · rw [Function.update_of_ne he] at hraw
      exact h.keys raw hraw
  values raw r hr := by
    by_cases he : raw = ty.keyCodec.encode k
    · rw [he, Function.update_self] at hr
      obtain rfl := Option.some.inj hr
      exact ⟨sl.value, rfl⟩
    · rw [Function.update_of_ne he] at hr
      exact h.values raw r hr

omit [Inhabited κ] [Inhabited υ] in
/-- A key is removed from both. -/
theorem Flags.removed (h : Flags ty c m) (k : κ) :
    Flags ty (Function.update c k none) (Function.update m (ty.keyCodec.encode k) none) := by
  have hupdate : Flags ty (Function.update c k none) m := h.update nofun
  refine hupdate.le fun raw r hr => ?_
  by_cases he : raw = ty.keyCodec.encode k
  · rw [he, Function.update_self] at hr
    cases hr
  · rwa [Function.update_of_ne he] at hr

/-- The flags are right in the state of the store below. -/
def Flagged (ty : Typed κ υ) (Rep : σ → Holdings → Prop) (c : κ → Option (Slot κ υ)) (s : σ) : Prop :=
  ∃ m, Rep s m ∧ Flags ty c m

omit [Inhabited κ] [Inhabited υ] in
/-- What the operations do on the way keeps the flags. -/
theorem flagged_upkeep (hty : RoundTrips ty) (hR : R.Lawful policy evicts accepts now Rep) :
    Upkeep ty R now (Flagged ty Rep) where
  isValid c s r s' := by
    rintro ⟨m, hm, h⟩ hr
    obtain ⟨hr, hm⟩ := hR.isValid hm hr
    exact ⟨hr, m, hm, h⟩
  «exists» c s k r s' := by
    rintro ⟨m, hm, h⟩ hr
    obtain ⟨-, m', hm', hs, -⟩ := hR.exists hm hr
    exact ⟨m', hm', h.le hs.le⟩
  get c s k r s' := by
    rintro ⟨m, hm, h⟩ hr
    obtain ⟨-, m', hm', hs⟩ := hR.get hm hr
    exact ⟨m', hm', h.le hs.le⟩
  expire c s k sl := by
    rintro ⟨m, hm, h⟩ hk hexp
    cases (h.not_expired hk).symm.trans hexp
  flush c s k sl r s' := by
    rintro ⟨m, hm, h⟩ hk hkey hexp hd hr
    obtain ⟨-, m', hm', hs⟩ := hR.put hm hr
    refine ⟨m', hm', ?_⟩
    cases r with
    | true =>
      rw [if_pos rfl, hkey] at hs
      exact (h.flush hty hk).le hs.le
    | false => exact h.le hs.le
  drop c s k sl := by
    rintro ⟨m, hm, h⟩ _ _ _
    exact ⟨m, hm, h.update nofun⟩

/-- Every operation without a TTL keeps the flags right. -/
theorem wp_perform_flagged (hty : RoundTrips ty) (hR : R.Lawful policy evicts accepts now Rep)
    (h : Wf ty t) (hj : Flagged ty Rep (cell ty t) s) {op : TieredOp κ υ} (httl : op.NoTtl) :
    R.wp (perform ty now t op) (fun x s' => Wf ty x.2 ∧ Flagged ty Rep (cell ty x.2) s') s := by
  have hU : Upkeep ty R now (Flagged ty Rep) := flagged_upkeep hty hR
  cases op with
  | put k v ttl priority =>
    have hzero : MicroStore.expiresAt now ttl = 0 := if_pos httl
    refine wp_put hU h hj (fun c s' sl t' ⟨m, hm, hf⟩ hk hwf hcell => ⟨hwf, ?_⟩)
      (fun c s₁ inL2 s' t' ⟨m, hm, hf⟩ hk hr _ hwf hcell => ⟨hwf, ?_⟩) fun s' hj' _ _ _ => ⟨h, hj'⟩
    · rw [hcell]
      refine ⟨m, hm, hf.update fun sl' hsl => ?_⟩
      obtain rfl := Option.some.inj hsl
      exact ⟨hzero, hf.fresh k sl hk⟩
    · obtain ⟨-, m', hm', hs, hnone⟩ := hR.exists hm hr
      rw [hcell]
      refine ⟨m', hm', (hf.le hs.le).update fun sl' hsl => ?_⟩
      obtain rfl := Option.some.inj hsl
      exact ⟨hzero, hnone⟩
  | get k =>
    refine StoreRel.wp_seq (Q := fun (x : Option υ × Tiered κ υ) s' =>
      Wf ty x.2 ∧ Flagged ty Rep (cell ty x.2) s') (wp_get hU h hj
        (fun _ _ _ hj' _ _ hwf => ⟨hwf, hj'⟩) (fun _ _ _ hj' _ _ hwf => ⟨hwf, hj'⟩)
        (fun _ _ _ hj' _ _ => ⟨h, hj'⟩) (fun _ _ _ _ hj' _ _ _ => ⟨h, hj'⟩)
        fun _ _ _ _ _ _ _ _ c t' s' ⟨m, hm, hf⟩ hk hwf hcell => ⟨hwf, ?_⟩) fun _ s' hx => hx
    rcases hcell with hcell | hcell
    · rw [hcell]
      exact ⟨m, hm, hf⟩
    · rw [hcell]
      refine ⟨m, hm, hf.update fun sl' hsl => ?_⟩
      obtain rfl := Option.some.inj hsl
      exact ⟨rfl, nofun⟩
  | «exists» k =>
    exact wp_exists hU h hj (fun _ _ _ hj' _ _ hwf => ⟨hwf, hj'⟩) (fun _ _ hj' _ _ => ⟨h, hj'⟩)
      fun _ _ _ _ hj' _ _ => ⟨h, hj'⟩
  | remove k =>
    refine wp_remove hU h hj (fun s' _ t' ⟨m, hm, hf⟩ _ _ hwf hcell => ⟨hwf, ?_⟩)
      (fun s₁ _ s' _ t' ⟨m, hm, hf⟩ _ _ hwf hcell hr => ⟨hwf, ?_⟩) (fun _ _ _ hj' _ _ => ⟨h, hj'⟩)
      fun s₁ _ s' ⟨m, hm, hf⟩ hk hr => ⟨h, ?_⟩
    · rw [hcell]
      exact ⟨m, hm, hf.update nofun⟩
    · obtain ⟨m', hm', hs⟩ := hR.remove hm hr
      rw [hcell]
      exact ⟨m', hm', (hf.removed k).le hs.le⟩
    · obtain ⟨m', hm', hs⟩ := hR.remove hm hr
      have hf' := (hf.removed k).le hs.le
      rw [Function.update_eq_self_iff.2 hk.symm] at hf'
      exact ⟨m', hm', hf'⟩
  | size =>
    refine StoreRel.wp_seq (Q := fun _ s' => Flagged ty Rep (cell ty t) s')
      (StoreRel.wp_call fun r s₀ hr => ?_) fun x s' hj' => ⟨h, hj'⟩
    obtain ⟨rfl, m, hm, hf⟩ := hU.isValid _ s r s₀ hj hr
    exact StoreRel.wp_call fun n s₁ hr₁ => ⟨m, (hR.size hm hr₁).1, hf⟩
  | iterate =>
    refine StoreRel.wp_seq (Q := fun (x : List (κ × υ) × Tiered κ υ) s' =>
      Wf ty x.2 ∧ Flagged ty Rep (cell ty x.2) s') (StoreRel.wp_call fun r s₀ hr => ?_) fun _ s' hx => hx
    obtain ⟨rfl, hj₀⟩ := hU.isValid _ s r s₀ hj hr
    refine StoreRel.wp_seq (wp_pruneExpired hU h hj₀) fun t₁ s₁ ⟨h₁, ⟨m, hm, hf⟩, _, _, _⟩ => ?_
    exact StoreRel.wp_call fun raws s₂ hr => ⟨h₁, m, (hR.iterate hm hr).1, hf⟩
  | sync =>
    refine StoreRel.wp_call fun r s₀ hr => ?_
    obtain ⟨rfl, hj₀⟩ := hU.isValid _ s r s₀ hj hr
    refine StoreRel.wp_seq (wp_pruneExpired hU h hj₀) fun t₁ s₁ ⟨h₁, hj₁, hlive, _, _⟩ => ?_
    refine Prog.wp_mono (wp_syncLoop hU (fun c s k _ s' ⟨m, hm, hf⟩ _ _ _ _ hr => ?_) h₁ hj₁ hlive)
      fun x s' hx => ⟨hx.1, hx.2.1⟩
    obtain ⟨-, m', hm', hs, -⟩ := hR.exists hm hr
    exact ⟨m', hm', (hf.le hs.le).update nofun⟩
  | clear =>
    refine StoreRel.wp_seq (Q := fun t' s' => Wf ty t' ∧ Flagged ty Rep (cell ty t') s')
      (StoreRel.wp_call fun r s₀ hr => ?_) fun _ s' hx => hx
    obtain ⟨rfl, m, hm, -⟩ := hU.isValid _ s r s₀ hj hr
    exact StoreRel.wp_call fun _ s₁ hr₁ =>
      ⟨wf_new, _, hR.clear hm hr₁, nofun, nofun, nofun, nofun⟩

/-! ## Views

`size` and the iterator join two lists: the slots that say their key is not in the store below, and
what the store below lists. -/

omit [DecidableEq κ] in
/-- Where nothing has expired, nothing is pruned. -/
theorem pruneLoop_eq (h : ∀ i, (t.slots i).valid = true → (t.slots i).isExpired now = false)
    (n i : Nat) : pruneLoop ty now n i t = pure t := by
  induction n generalizing i with
  | zero => rfl
  | succ n ih =>
    have hno : ¬((t.slots i).valid && (t.slots i).isExpired now) = true := by
      rw [Bool.and_eq_true]
      rintro ⟨hv, he⟩
      cases (h i hv).symm.trans he
    rw [pruneLoop, if_neg hno]
    exact ih (i + 1)

/-- The keys the iterator yields: those of the store below, and those of the slots that are not in it. -/
theorem merged_spec (hty : RoundTrips ty) (h : Wf ty t) {raws : List (Bytes × Bytes)}
    (hnodup : (raws.map Prod.fst).Nodup) (hkeys : ∀ raw ∈ raws, ∃ k, raw.1 = ty.keyCodec.encode k)
    (hvalues : ∀ raw ∈ raws, ∃ v, raw.2 = ty.valueCodec.encode v)
    (hfresh : ∀ k sl, cell ty t k = some sl → sl.inL2 = false →
      ty.keyCodec.encode k ∉ raws.map Prod.fst) :
    let keys := (raws.filterMap (mergeEntry ty t) ++
      (onlyL1 ty t).map fun i => ((t.slots i).key, (t.slots i).value)).map Prod.fst
    keys.Nodup ∧ (∀ k, k ∈ keys ↔ ty.keyCodec.encode k ∈ raws.map Prod.fst ∨
      ∃ sl, cell ty t k = some sl ∧ sl.inL2 = false) ∧
    keys.length = raws.length + (onlyL1 ty t).length := by
  have hshown (raw : Bytes × Bytes) (hraw : raw ∈ raws) :
      ∃ k v, raw.1 = ty.keyCodec.encode k ∧ mergeEntry ty t raw = some (k, v) := by
    obtain ⟨k, hk⟩ := hkeys raw hraw
    obtain ⟨v, hv⟩ := hvalues raw hraw
    rw [mergeEntry, hk, hty.key]
    dsimp only
    cases hfind : find ty t k with
    | some i => exact ⟨k, (t.slots i).value, rfl, by dsimp only; rw [((h.find_eq_some).1 hfind).2]⟩
    | none => exact ⟨k, v, rfl, by dsimp only; rw [hv, hty.value]⟩
  have hmerged := merged_keys hshown
  obtain ⟨hsolo, hmemsolo⟩ := onlyL1_keys h
  have hinj : Function.Injective ty.keyCodec.encode := fun _ _ he => hty.inj he
  have hmap : ((raws.filterMap (mergeEntry ty t)).map Prod.fst).map ty.keyCodec.encode
      = raws.map Prod.fst := by
    rw [List.map_map]
    exact hmerged
  have hmem (k : κ) : k ∈ (raws.filterMap (mergeEntry ty t)).map Prod.fst ↔
      ty.keyCodec.encode k ∈ raws.map Prod.fst := by
    rw [← hmap, List.mem_map_of_injective hinj]
  intro keys
  have hkeys : keys = (raws.filterMap (mergeEntry ty t)).map Prod.fst ++
      (onlyL1 ty t).map fun i => (t.slots i).key := by
    change List.map Prod.fst (_ ++ _) = _
    rw [List.map_append, List.map_map]
    rfl
  rw [hkeys]
  refine ⟨?_, fun k => ?_, ?_⟩
  · refine List.Nodup.append (List.Nodup.of_map ty.keyCodec.encode (hmap ▸ hnodup)) hsolo fun k hk hk' => ?_
    obtain ⟨sl, hsl, hin⟩ := (hmemsolo k).1 hk'
    exact hfresh k sl hsl hin ((hmem k).1 hk)
  · rw [List.mem_append, hmem, hmemsolo]
  · have hlen := congrArg List.length hmap
    rw [List.length_map, List.length_map, List.length_map] at hlen
    rw [List.length_append, List.length_map, List.length_map, hlen]

end flags

end Tiered

section views

variable {κ υ : Type} [DecidableEq κ] [Inhabited κ] [Inhabited υ]

/-- The iterator yields exactly the keys that `exists` finds, each once, and `size` is their number. -/
def TieredState.ViewsAgree (su : Setup) (ty : Typed κ υ) (x : TieredState κ υ (Store × FileSystem))
    (e : Moment) : Prop :=
  let keys := ((fileBacking su).exec e (Tiered.iterate ty e.clock.time x.tier) x.store).1.1.map Prod.fst
  keys.Nodup ∧ (∀ k, k ∈ keys ↔
    ((fileBacking su).exec e (Tiered.exists ty e.clock.time x.tier k) x.store).1.1 = true) ∧
  ((fileBacking su).exec e (Tiered.size ty x.tier) x.store).1 = keys.length

/-- Every slot that says its key is in the store below is right, and the store below has no key without a
slot that has expired by its policy. -/
def TieredState.FlagsRight (ty : Typed κ υ) (x : TieredState κ υ (Store × FileSystem)) (now : UInt32) :
    Prop :=
  (∀ i, (x.tier.slots i).valid = true → (x.tier.slots i).inL2 = true →
    (x.store.1.indexFind (ty.keyCodec.encode (x.tier.slots i).key)).isSome) ∧
  ∀ k v, Tiered.find ty x.tier k = none → x.store.1.indexFind (ty.keyCodec.encode k) = some v →
    x.store.1.isTtlExpired now v.timestamp v.ttl.toNat = false

variable {su : Setup} {ty : Typed κ υ} {x : TieredState κ υ (Store × FileSystem)} {e : Moment}
  {m : Holdings}

/-- The store below answers that it is valid. -/
theorem exec_isValid {α : Type} {s : Store × FileSystem} (hm : FileHolds su s m)
    (f : StoreCall.isValid.Reply → StoreM α) :
    (fileBacking su).exec e (storeCall .isValid >>= f) s = (fileBacking su).exec e (f true) s := by
  obtain ⟨mm, L, h, -⟩ := hm
  have hvalid : (s.1.valid : StoreCall.isValid.Reply) = true := h.rep.valid
  change (fileBacking su).exec e (f s.1.valid) s = _
  rw [hvalid]

/-- What `exists` answers. -/
theorem exec_exists (hm : FileHolds su x.store m)
    (hf : Tiered.Flags ty (Tiered.cell ty x.tier) m) {k : κ}
    (hlen : (ty.keyCodec.encode k).length < 2 ^ 8) :
    ((fileBacking su).exec e (Tiered.exists ty e.clock.time x.tier k) x.store).1.1 = true ↔
      (Tiered.cell ty x.tier k).isSome ∨
        (m.shown su.ttlSecs e.clock.time (ty.keyCodec.encode k)).isSome := by
  have hex := (hm.exists (e := e) hlen).1
  rw [Tiered.exists, exec_isValid hm]
  dsimp only
  cases hfind : Tiered.find ty x.tier k with
  | some i =>
    have hcell := Tiered.cell_of_find hfind
    have hexp : (x.tier.slots i).isExpired e.clock.time = false := hf.not_expired hcell
    dsimp only
    rw [hexp, if_neg Bool.false_ne_true, hcell]
    exact iff_of_true rfl (.inl rfl)
  | none =>
    rw [Tiered.cell_eq_none.2 hfind]
    change (x.store.1.exists e.clock (Buf.at (ty.keyCodec.encode k)).asKey).1 = true ↔ _
    rw [hex]
    exact (or_iff_right Bool.false_ne_true).symm

/-- What the iterator and `size` answer. -/
theorem exec_iterate (hm : FileHolds su x.store m) (hty : Tiered.RoundTrips ty)
    (h : Tiered.Wf ty x.tier) (hf : Tiered.Flags ty (Tiered.cell ty x.tier) m) :
    let keys := ((fileBacking su).exec e (Tiered.iterate ty e.clock.time x.tier) x.store).1.1.map Prod.fst
    keys.Nodup ∧ (∀ k, k ∈ keys ↔ (m (ty.keyCodec.encode k)).isSome ∨
      ∃ sl, Tiered.cell ty x.tier k = some sl ∧ sl.inL2 = false) ∧
    ((fileBacking su).exec e (Tiered.size ty x.tier) x.store).1 = keys.length := by
  obtain ⟨raws, hraws, hnodup, hmem⟩ : ∃ raws : List (Bytes × Bytes),
      raws = (Prog.exec posix (fileCall x.store.1 e .iterate) x.store.2).1.1 ∧
        (raws.map Prod.fst).Nodup ∧ ∀ k v, (k, v) ∈ raws ↔ (m k).map RawRecord.value = some v :=
    ⟨_, rfl, (hm.iterate (e := e)).2⟩
  obtain ⟨ks, hks, hmemks, hsize⟩ := hm.size
  have hlive (i : Nat) (hv : (x.tier.slots i).valid = true) :
      (x.tier.slots i).isExpired e.clock.time = false := hf.not_expired (h.cell_of_valid hv)
  have hiter : ((fileBacking su).exec e (Tiered.iterate ty e.clock.time x.tier) x.store).1.1
      = raws.filterMap (Tiered.mergeEntry ty x.tier) ++ (Tiered.onlyL1 ty x.tier).map fun i =>
        ((x.tier.slots i).key, (x.tier.slots i).value) := by
    rw [Tiered.iterate, exec_isValid hm]
    dsimp only
    rw [Tiered.pruneExpired, Tiered.pruneLoop_eq hlive, hraws]
    rfl
  have hcount : ((fileBacking su).exec e (Tiered.size ty x.tier) x.store).1
      = x.store.1.size + (Tiered.onlyL1 ty x.tier).length := by
    rw [Tiered.size, exec_isValid hm]
    rfl
  have hmemraws (raw : Bytes) : raw ∈ raws.map Prod.fst ↔ (m raw).isSome := by
    rw [List.mem_map]
    constructor
    · rintro ⟨⟨a, b⟩, hab, rfl⟩
      obtain ⟨r, hr, -⟩ := Option.map_eq_some_iff.1 ((hmem a b).1 hab)
      rw [hr]
      rfl
    · intro hsome
      obtain ⟨r, hr⟩ := Option.isSome_iff_exists.1 hsome
      exact ⟨(raw, r.value), (hmem _ _).2 (by rw [hr]; rfl), rfl⟩
  have hlength : raws.length = ks.length := by
    rw [← List.length_map (f := Prod.fst)]
    exact ((List.perm_ext_iff_of_nodup hnodup hks).2 fun raw => by rw [hmemraws, hmemks]).length_eq
  obtain ⟨hkeys, hmemkeys, hlen⟩ := Tiered.merged_spec hty h hnodup
    (fun raw hraw => hf.keys _ ((hmemraws _).1 (List.mem_map_of_mem hraw)))
    (fun raw hraw => by
      obtain ⟨r, hr, hv⟩ := Option.map_eq_some_iff.1 ((hmem raw.1 raw.2).1 hraw)
      rw [← hv]
      exact hf.values _ r hr)
    fun k sl hsl hin hk => by
      have hsome := (hmemraws _).1 hk
      rw [hf.fresh k sl hsl hin] at hsome
      cases hsome
  rw [hiter]
  refine ⟨hkeys, fun k => (hmemkeys k).trans (or_congr_left (hmemraws _)), ?_⟩
  rw [hcount, hlen, hlength, hsize]

/-- Where the flags are right the key of a slot that says so is in the store below. -/
theorem flagsRight_iff (hm : FileHolds su x.store m) (h : Tiered.Wf ty x.tier) {now : UInt32} :
    x.FlagsRight ty now ↔ (∀ k sl, Tiered.cell ty x.tier k = some sl → sl.inL2 = true →
      (m (ty.keyCodec.encode k)).isSome) ∧ ∀ k, Tiered.cell ty x.tier k = none →
      (m (ty.keyCodec.encode k)).isSome → (m.shown su.ttlSecs now (ty.keyCodec.encode k)).isSome := by
  obtain ⟨mm, L, hheld, hreg, rfl⟩ := hm
  have hfind (raw : Bytes) : x.store.1.indexFind raw = (L.live raw).map Located.indexValue :=
    hheld.rep.shows raw
  have hsome (raw : Bytes) : (x.store.1.indexFind raw).isSome = (L.holdings raw).isSome := by
    rw [hfind, Log.holdings, Option.isSome_map, Option.isSome_map]
  have hexpires (raw : Bytes) (t : Located) (ht : L.live raw = some t) :
      x.store.1.isTtlExpired now t.indexValue.timestamp t.indexValue.ttl.toNat = false ↔
        (L.holdings.shown su.ttlSecs now raw).isSome := by
    have hiff := @Held.expires_raw _ _ _ _ _ hheld now _ (hreg raw t ht).2.2
    have hshown : L.holdings.shown su.ttlSecs now raw
        = if t.record.raw.Over su.ttlSecs now then none else some t.record.raw := by
      rw [Holdings.shown, Log.holdings, ht, Option.map_some, Option.filter_some]
      by_cases hover : t.record.raw.Over su.ttlSecs now
      · rw [decide_eq_true hover, if_pos hover]
        rfl
      · rw [decide_eq_false hover, if_neg hover]
        rfl
    change x.store.1.expires now t.record = false ↔ _
    rw [hshown, ← Bool.not_eq_true, hiff]
    by_cases hover : t.record.raw.Over su.ttlSecs now
    · rw [if_pos hover]
      exact iff_of_false (fun hno => hno hover) Bool.false_ne_true
    · rw [if_neg hover]
      exact iff_of_true hover rfl
  refine and_congr ⟨fun hr k sl hsl hin => ?_, fun hr i hv hin => ?_⟩
    ⟨fun hr k hc hk => ?_, fun hr k v hc hk => ?_⟩
  · obtain ⟨i, hv, rfl, rfl⟩ := h.cell_eq_some.1 hsl
    rw [← hsome]
    exact hr i hv hin
  · rw [hsome]
    exact hr _ _ (h.cell_of_valid hv) hin
  · obtain ⟨r, hr'⟩ := Option.isSome_iff_exists.1 hk
    obtain ⟨t, ht, -⟩ := Option.map_eq_some_iff.1 hr'
    refine (hexpires _ t ht).1 (hr k _ (Tiered.cell_eq_none.1 hc) ?_)
    rw [hfind, ht]
    rfl
  · rw [hfind] at hk
    obtain ⟨t, ht, rfl⟩ := Option.map_eq_some_iff.1 hk
    refine (hexpires _ t ht).2 (hr k (Tiered.cell_eq_none.2 hc) ?_)
    rw [Log.holdings, ht]
    rfl

/-- The views agree where the flags are right. -/
theorem viewsAgree_iff (hty : Tiered.RoundTrips ty) (hlen : ∀ k, (ty.keyCodec.encode k).length < 2 ^ 8)
    (h : Tiered.Wf ty x.tier) (hj : Tiered.Flagged ty (FileHolds su) (Tiered.cell ty x.tier) x.store) :
    x.ViewsAgree su ty e ↔ x.FlagsRight ty e.clock.time := by
  obtain ⟨m, hm, hf⟩ := hj
  obtain ⟨hnodup, hmem, hsize⟩ := exec_iterate (e := e) hm hty h hf
  have hex (k : κ) := exec_exists (e := e) hm hf (hlen k)
  rw [flagsRight_iff hm h, TieredState.ViewsAgree]
  constructor
  · rintro ⟨-, hagree, -⟩
    refine ⟨fun k sl hsl hin => ?_, fun k hc hk => ?_⟩
    · have hk := (hmem k).1 ((hagree k).2 ((hex k).2 (.inl (by rw [hsl]; rfl))))
      refine hk.resolve_right ?_
      rintro ⟨sl', hsl', hin'⟩
      obtain rfl := Option.some.inj (hsl.symm.trans hsl')
      cases hin.symm.trans hin'
    · have hk := (hex k).1 ((hagree k).1 ((hmem k).2 (.inl hk)))
      rw [hc] at hk
      exact hk.resolve_left Bool.false_ne_true
  · rintro ⟨hflags, hlive⟩
    refine ⟨hnodup, fun k => ?_, hsize⟩
    rw [hex, hmem]
    cases hc : Tiered.cell ty x.tier k with
    | some sl =>
      refine iff_of_true ?_ (.inl rfl)
      cases hin : sl.inL2 with
      | true => exact .inl (hflags k sl hc hin)
      | false => exact .inr ⟨sl, rfl, hin⟩
    | none =>
      constructor
      · rintro (hk | ⟨sl, hsl, -⟩)
        · exact .inr (hlive k hc hk)
        · cases hsl
      · rintro (hno | hk)
        · cases hno
        · obtain ⟨r, hr⟩ := Option.isSome_iff_exists.1 hk
          exact .inl (Option.isSome_iff_exists.2 ⟨r, (Holdings.shown_eq_some.1 hr).1⟩)

/-- A run without TTLs keeps the flags right. -/
theorem flagged_run {ops : List (Moment × TieredOp κ υ)} (hty : Tiered.RoundTrips ty)
    (htwo : 2 ≤ su.segments.toNat) (h : Tiered.Wf ty x.tier)
    (hj : Tiered.Flagged ty (FileHolds su) (Tiered.cell ty x.tier) x.store)
    (httl : ∀ op ∈ ops, op.2.NoTtl)
    (hfine : TieredState.All (fileBacking su) ty (fun x e op => x.Fine (fileBacking su) ty e op) ops x) :
    Tiered.Wf ty (x.run (fileBacking su) ty ops).tier ∧
      Tiered.Flagged ty (FileHolds su) (Tiered.cell ty (x.run (fileBacking su) ty ops).tier)
        (x.run (fileBacking su) ty ops).store := by
  induction ops generalizing x with
  | nil => exact ⟨h, hj⟩
  | cons op ops ih =>
    obtain ⟨e, op⟩ := op
    obtain ⟨h', hj'⟩ := Backing.exec_of_wp (Tiered.wp_perform_flagged hty (fileBacking_lawful htwo e) h hj
      (httl _ List.mem_cons_self)) hfine.1
    exact ih h' hj' (fun op' h' => httl op' (List.mem_cons_of_mem _ h')) hfine.2

end views

/-- **The views agree exactly where the flags are right**, in every state that a run without TTLs
reaches. -/
theorem views_agree_iff {κ υ : Type} [DecidableEq κ] [Inhabited κ] [Inhabited υ] (su : Setup)
    (order : IterationOrder) (fs : FileSystem) (hstart : su.Starts order fs)
    (htwo : 2 ≤ su.segments.toNat) (ty : Typed κ υ) (hty : Tiered.RoundTrips ty)
    (hlen : ∀ k, (ty.keyCodec.encode k).length < 2 ^ 8) (ops : List (Moment × TieredOp κ υ))
    (httl : ∀ op ∈ ops, op.2.NoTtl)
    (hfine : TieredState.All (fileBacking su) ty (fun x e op => x.Fine (fileBacking su) ty e op) ops
      (.start (Prog.exec posix (su.start order) fs))) (e : Moment) :
    ((TieredState.start (Prog.exec posix (su.start order) fs)).run (fileBacking su) ty ops).ViewsAgree su
        ty e ↔
      ((TieredState.start (Prog.exec posix (su.start order) fs)).run (fileBacking su) ty ops).FlagsRight ty
        e.clock.time := by
  obtain ⟨h, hj⟩ := flagged_run (x := .start (Prog.exec posix (su.start order) fs)) hty htwo
    Tiered.wf_new ⟨_, hstart.fileHolds, nofun, nofun, nofun, nofun⟩ httl hfine
  exact viewsAgree_iff hty hlen h hj

/-- At most one record in the store below. -/
def singleSetup : Setup := { sampleSetup with maxRecs := 1 }

/-- It starts on an empty disk. -/
theorem singleSetup_starts : singleSetup.Starts .recent .empty where
  names := namesOk_of_length_le (by decide)
  fresh _ _ := rfl
  small := by decide +kernel

/-- As `byteTyped`, with two slots. -/
def pairTyped : Typed UInt8 UInt8 := { byteTyped with cacheSize := 2 }

/-- Two keys are put and flushed, into a store that keeps one of them. -/
def twoFlushed : List (Moment × TieredOp UInt8 UInt8) :=
  [(.at 0, .put 1 10 0 0), (.at 1, .put 2 20 0 0), (.at 2, .sync)]

theorem views_agree_iff_sample :
    let x := (TieredState.start (Prog.exec posix (singleSetup.start .recent) .empty)).run
      (fileBacking singleSetup) pairTyped twoFlushed
    x.ViewsAgree singleSetup pairTyped (.at 3) ↔ x.FlagsRight pairTyped 3 :=
  views_agree_iff singleSetup .recent .empty singleSetup_starts (by decide) pairTyped ⟨fun _ => rfl, fun _ => rfl⟩
    (fun _ => show 1 < 2 ^ 8 by decide) twoFlushed (by decide) (by decide +kernel) (.at 3)

/-- The key evicted below is still found by its slot, but no longer counted. -/
theorem views_disagree :
    ¬((TieredState.start (Prog.exec posix (singleSetup.start .recent) .empty)).run (fileBacking singleSetup)
      pairTyped twoFlushed).ViewsAgree singleSetup pairTyped (.at 3) := by
  rintro ⟨-, hagree, -⟩
  have hyes := (hagree 1).2 (by decide +kernel)
  have hyes' := (hagree 2).2 (by decide +kernel)
  revert hyes hyes'
  decide +kernel

end MicroStore
