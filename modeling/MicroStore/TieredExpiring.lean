import MicroStore.TieredFile

/-!
# Time to live in a tiered store

A `get` that promotes an entry forgets when it expires (`promoted_outlives`), the sum of time and TTL
may wrap, and `sync` may drop a newer value with its expired older copy.  In a run that does none of
this every TTL is honoured exactly (`ttls_honoured`).

## What is here

* `TieredState.HonoursTtls` — a lookup at any time finds the value that was put last exactly if its TTL
  has not run out.
* `TieredState.TtlSafe` — the condition on a step: the TTL of a put does not wrap (`PutFits`), a `sync`
  finds the older copies (`SyncFinds`), and a `get` does not promote a record that is still going to
  expire (`GetKeeps`).
* `exactly` — the aspects that `Tiered.Kept` has to keep track of for this.
* `Tiered.Sees.found_iff`, `TieredState.Kept.honoursTtls` — from the invariant to the statement.

The invariant and the run lemma are those of `TieredSession.lean`; what is new is that the expiry of
every slot is that of its put.
-/

set_option autoImplicit false

namespace MicroStore

section expiring

variable {κ υ : Type} [DecidableEq κ] [Inhabited κ] [Inhabited υ]

/-- A lookup of a key that was put with a TTL succeeds as long as that has not run out, and no longer. -/
def TieredState.HonoursTtls (su : Setup) (ty : Typed κ υ) (x : TieredState κ υ (Store × FileSystem))
    (e : Moment) : Prop :=
  ∀ k p, x.puts k = some p → p.ttl ≠ 0 →
    (x.Fine (fileBacking su) ty e (.get k) →
      (((fileBacking su).exec e (Tiered.get ty e.clock.time x.tier k) x.store).1.1.isSome = true ↔
        e.clock.time.toNat < p.time.toNat + p.ttl.toNat)) ∧
    (x.Fine (fileBacking su) ty e (.exists k) →
      (((fileBacking su).exec e (Tiered.exists ty e.clock.time x.tier k) x.store).1.1 = true ↔
        e.clock.time.toNat < p.time.toNat + p.ttl.toNat))

/-- A step of a run that honours TTLs: its calls go well, the expiry of its put fits into 32 bits, its
`get` promotes nothing that will expire, and its `sync` finds the older copies of the changed slots. -/
def TieredState.TtlSafe (su : Setup) (ty : Typed κ υ) (x : TieredState κ υ (Store × FileSystem))
    (e : Moment) (op : TieredOp κ υ) : Prop :=
  x.Fine (fileBacking su) ty e op ∧ x.PutFits (fileBacking su) su.ttlSecs e op ∧
    x.GetKeeps (fileBacking su) ty su.ttlSecs e op ∧ x.SyncFinds (fileBacking su) ty e op

instance (su : Setup) (ty : Typed κ υ) (x : TieredState κ υ (Store × FileSystem)) (e : Moment)
    (op : TieredOp κ υ) : Decidable (x.TtlSafe su ty e op) :=
  inferInstanceAs (Decidable (_ ∧ _))

/-- The expiries of the slots are kept track of besides. -/
def exactly : Tiered.Aspects := ⟨True, False, False⟩

omit [Inhabited υ] in
/-- A lookup sees a put with a TTL as long as that has not run out. -/
theorem Tiered.Sees.found_iff {policy now : UInt32} {p : TieredPut υ} {found : Bool}
    (h : Tiered.Sees policy now exactly (some p) found) (httl : p.ttl ≠ 0) :
    found = true ↔ now.toNat < p.time.toNat + p.ttl.toNat := by
  rw [← Nat.not_le, ← @TieredPut.over_iff _ policy p httl now]
  constructor
  · intro hfound
    obtain ⟨p', hp, hlive⟩ := h.yes hfound
    obtain rfl := Option.some.inj hp
    exact hlive trivial httl
  · intro hlive
    by_contra hno
    exact hlive (h.no (Bool.eq_false_iff.2 hno) p rfl)

/-- A tiered store that keeps track of the expiries honours TTLs. -/
theorem TieredState.Kept.honoursTtls {su : Setup} {ty : Typed κ υ} (hty : Tiered.RoundTrips ty)
    (htwo : 2 ≤ su.segments.toNat) (hmax : su.maxRecs = 0) {x : TieredState κ υ (Store × FileSystem)}
    {e : Moment} (h : x.Kept ty su.ttlSecs exactly e.clock.time (FileHolds su)) :
    x.HonoursTtls su ty e := by
  intro k p hp httl
  have hR := @fileBacking_keeps su htwo hmax e
  constructor
  · intro hfine
    have hget : ((fileBacking su).rel e).wp (Tiered.get ty e.clock.time x.tier k) _ x.store :=
      h.wp_get hty hR
    have hfine : (fileBacking su).Fine e (Tiered.get ty e.clock.time x.tier k) x.store := fun y hy =>
      hfine y (by
        rw [Tiered.perform, Prog.trace_bind]
        exact List.mem_append_left _ hy)
    have hsees := (Backing.exec_of_wp hget hfine).2.1
    rw [hp] at hsees
    exact hsees.found_iff httl
  · intro hfine
    have hsees := (Backing.exec_of_wp (h.wp_exists hty hR) hfine).2
    rw [hp] at hsees
    exact hsees.found_iff httl

end expiring

end MicroStore
