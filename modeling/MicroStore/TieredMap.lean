import MicroStore.Expiring
import MicroStore.TieredSpec

/-!
# A cache over a store that forgets

A store below is `Lawful` if it behaves as a map of records that it may forget when they have expired.
Over such a store `Tracks` says where the last put of every key is to be found: in a slot, in the store
below, or in both.

## What is here

* `RawRecord`, `Holdings` — what the store below holds, as a map.  `Holdings.Shrinks` is what it may do
  to it at any call: drop what has expired, and, if it evicts, anything.
* `StoreRel.Lawful` — the laws of the calls, for one time and one policy.
* `TieredPut` — a put of a user: the value, the time and the TTL.  `TieredPut.Over` is the end of its
  TTL in exact numbers; `TieredPut.Fits` says that the 32 bits of the source do not wrap.
* `TieredPut.Matches` — a record in the store below with another TTL and another time, as a flush writes
  it, expires when the put does.
* `Placed` — where the put of one key is.  `Tracks` — the same of all keys.
* `Placed.put`, `Placed.flush`, `Placed.drop`, `Placed.promote` and so on — the ways of a put between
  the two tiers.

## Aspects

Not every property of a run survives every step, so which of them are kept track of is a parameter
(`Aspects`): that slots expire with their puts, that older copies are still there, that nothing expires
at all.
-/

set_option autoImplicit false

namespace MicroStore

/-! ## The store below

A lawful store answers from its map, less what has expired.  It may forget the latter at any time,
which is why its `size` and iteration are stated of the map as it is. -/

/-- A record in the store below. -/
structure RawRecord where
  /-- The encoded value. -/
  value : Bytes
  /-- The TTL it was put with. -/
  ttl : UInt32
  /-- The time it was put at. -/
  ts : UInt32
  deriving DecidableEq

/-- What the store below holds. -/
abbrev Holdings := Bytes → Option RawRecord

/-- The record has expired. -/
def RawRecord.Over (policy now : UInt32) (r : RawRecord) : Prop := Expired r.ttl policy r.ts now

instance (policy now : UInt32) (r : RawRecord) : Decidable (r.Over policy now) :=
  inferInstanceAs (Decidable (Expired ..))

/-- The record of the key, unless it has expired. -/
def Holdings.shown (m : Holdings) (policy now : UInt32) (k : Bytes) : Option RawRecord :=
  (m k).filter fun r => !decide (r.Over policy now)

/-- Records have been forgotten: any of them by a store that evicts, otherwise expired ones. -/
structure Holdings.Shrinks (policy : UInt32) (evicts : Prop) (now : UInt32) (m m' : Holdings) : Prop where
  /-- Nothing is added. -/
  le : ∀ k r, m' k = some r → m k = some r
  /-- Without eviction only what has expired goes. -/
  keeps : ¬evicts → ∀ k r, m k = some r → ¬r.Over policy now → m' k = some r

/-- The store behaves as a map of records: `Rep s m` says that in the state `s` it holds `m`. -/
structure StoreRel.Lawful {σ : Type} (R : StoreRel σ) (policy : UInt32) (evicts : Prop)
    (accepts : Bytes → Bytes → Prop) (now : UInt32) (Rep : σ → Holdings → Prop) : Prop where
  /-- The store is valid. -/
  isValid : ∀ {s m r s'}, Rep s m → R .isValid s r s' → r = true ∧ Rep s' m
  /-- A put succeeds if the store accepts it, and then replaces. -/
  put : ∀ {s m k v ttl ts priority} {r : Bool} {s'}, Rep s m → R (.put k v ttl ts priority) s r s' →
    (r = true ↔ accepts k v) ∧ ∃ m', Rep s' m' ∧ Holdings.Shrinks policy evicts now
      (if r = true then Function.update m k (some ⟨v, ttl, ts⟩) else m) m'
  /-- A lookup finds what has not expired. -/
  get : ∀ {s m k} {r : Option Bytes} {s'}, Rep s m → R (.get k) s r s' →
    r = (m.shown policy now k).map RawRecord.value ∧
      ∃ m', Rep s' m' ∧ m.Shrinks policy evicts now m'
  /-- So does `exists`; a key that it denies is gone. -/
  «exists» : ∀ {s m k} {r : Bool} {s'}, Rep s m → R (.exists k) s r s' →
    r = (m.shown policy now k).isSome ∧
      ∃ m', Rep s' m' ∧ m.Shrinks policy evicts now m' ∧ (r = false → m' k = none)
  /-- A remove drops the key. -/
  remove : ∀ {s m k r s'}, Rep s m → R (.remove k) s r s' →
    ∃ m', Rep s' m' ∧ Holdings.Shrinks policy evicts now (Function.update m k none) m'
  /-- All keys are counted. -/
  size : ∀ {s m} {r : Nat} {s'}, Rep s m → R .size s r s' → Rep s' m ∧
    ∃ ks : List Bytes, ks.Nodup ∧ (∀ k, k ∈ ks ↔ (m k).isSome) ∧ r = ks.length
  /-- All records are yielded. -/
  iterate : ∀ {s m} {r : List (Bytes × Bytes)} {s'}, Rep s m → R .iterate s r s' → Rep s' m ∧
    (r.map Prod.fst).Nodup ∧ ∀ k v, (k, v) ∈ r ↔ (m k).map RawRecord.value = some v
  /-- Nothing is left. -/
  clear : ∀ {s m r s'}, Rep s m → R .clear s r s' → Rep s' fun _ => none

section contents

variable {policy now : UInt32} {evicts : Prop} {m m' m'' : Holdings}

/-- What is shown is there and has not expired. -/
theorem Holdings.shown_eq_some {k : Bytes} {r : RawRecord} :
    m.shown policy now k = some r ↔ m k = some r ∧ ¬r.Over policy now := by
  rw [Holdings.shown, Option.filter_eq_some_iff, Bool.not_eq_true', decide_eq_false_iff_not]

/-- Nothing is forgotten. -/
theorem Holdings.Shrinks.refl : m.Shrinks policy evicts now m := ⟨fun _ _ h => h, fun _ _ _ h _ => h⟩

/-- What is not there does not come back. -/
theorem Holdings.Shrinks.none {k : Bytes} (h : m.Shrinks policy evicts now m') (hk : m k = none) :
    m' k = none := by
  cases hk' : m' k with
  | none => rfl
  | some r => cases hk.symm.trans (h.le k r hk')

end contents

/-! ## Puts

The source computes with 32-bit times: the expiry of a slot is a sum, the TTL of a flushed record a
difference.  `Fits` is the condition under which these are the numbers they stand for. -/

/-- A put of a key, as its caller sees it. -/
structure TieredPut (υ : Type) where
  /-- The value. -/
  value : υ
  /-- The time of the put. -/
  time : UInt32
  /-- Its TTL, zero for none. -/
  ttl : UInt32
  deriving DecidableEq

namespace TieredPut

variable {υ : Type}

/-- What was put has expired: its TTL has run out, or the policy of the store below where it has none. -/
def Over (policy now : UInt32) (p : TieredPut υ) : Prop := Expired p.ttl policy p.time now

instance (policy now : UInt32) (p : TieredPut υ) : Decidable (p.Over policy now) :=
  inferInstanceAs (Decidable (Expired ..))

/-- The expiry fits into 32 bits. -/
def Fits (policy : UInt32) (p : TieredPut υ) : Prop :=
  p.ttl = 0 ∨ p.time.toNat + p.ttl.toNat < 2 ^ 32 ∨ policy = 0 ∧ p.time.toNat + p.ttl.toNat = 2 ^ 32

instance (policy : UInt32) (p : TieredPut υ) : Decidable (p.Fits policy) :=
  inferInstanceAs (Decidable (_ ∨ _ ∨ _))

/-- A record with this TTL and timestamp does not expire before the put, and with it if that has a
TTL. -/
structure Matches (policy : UInt32) (p : TieredPut υ) (ttl ts : UInt32) : Prop where
  /-- When the record has expired the put has. -/
  dead : ∀ now, Expired ttl policy ts now → p.Over policy now
  /-- And the other way round, if the put has a TTL. -/
  exact : p.ttl ≠ 0 → ∀ now, p.Over policy now → Expired ttl policy ts now

/-- A record with the TTL and the time of the put. -/
theorem Matches.self (policy : UInt32) (p : TieredPut υ) : p.Matches policy p.ttl p.time :=
  ⟨fun _ h => h, fun _ _ h => h⟩

/-- A TTL runs out at the sum of timestamp and TTL. -/
theorem expired_iff {ttl policy ts now : UInt32} (h : ttl ≠ 0) :
    Expired ttl policy ts now ↔ ts.toNat + ttl.toNat ≤ now.toNat := by
  have hpos : 0 < ttl.toNat := Nat.pos_of_ne_zero fun he => h (UInt32.toNat_inj.1 he)
  have heff : (if ttl ≠ 0 then ttl else policy) = ttl := if_pos h
  have hdef : Expired ttl policy ts now ↔ ttl ≠ 0 ∧ ts < now ∧ ttl ≤ now - ts := by
    rw [Expired]
    simp only [heff]
  rw [hdef]
  constructor
  · rintro ⟨-, hlt, hle⟩
    rw [UInt32.le_iff_toNat_le, UInt32.toNat_sub_of_le _ _ (UInt32.le_of_lt hlt)] at hle
    rw [UInt32.lt_iff_toNat_lt] at hlt
    omega
  · intro hle
    have hlt : ts < now := UInt32.lt_iff_toNat_lt.2 (by omega)
    refine ⟨h, hlt, ?_⟩
    rw [UInt32.le_iff_toNat_le, UInt32.toNat_sub_of_le _ _ (UInt32.le_of_lt hlt)]
    omega

/-- Without a TTL the policy counts. -/
theorem expired_zero {policy ts now : UInt32} :
    Expired 0 policy ts now ↔ policy ≠ 0 ∧ ts < now ∧ policy ≤ now - ts := Iff.rfl

/-- Without either nothing expires. -/
theorem not_expired_zero {ts now : UInt32} : ¬Expired 0 0 ts now := fun h => h.1 rfl

variable {policy : UInt32} {p : TieredPut υ}

/-- The expiry of a slot that holds the put. -/
theorem toNat_expiresAt (hfit : p.Fits policy) (hne : MicroStore.expiresAt p.time p.ttl ≠ 0) :
    p.ttl ≠ 0 ∧ (MicroStore.expiresAt p.time p.ttl).toNat = p.time.toNat + p.ttl.toNat := by
  have httl : p.ttl ≠ 0 := fun he => hne (by rw [MicroStore.expiresAt, if_pos he])
  rw [MicroStore.expiresAt, if_neg httl] at hne ⊢
  refine ⟨httl, ?_⟩
  rw [UInt32.toNat_add]
  rcases hfit with h | h | ⟨-, h⟩
  · exact absurd h httl
  · exact Nat.mod_eq_of_lt h
  · refine absurd (UInt32.toNat_inj.1 ?_) hne
    rw [UInt32.toNat_add, h]
    rfl

/-- A put is over when its time and its TTL have passed. -/
theorem over_iff (h : p.ttl ≠ 0) {now : UInt32} :
    p.Over policy now ↔ p.time.toNat + p.ttl.toNat ≤ now.toNat := expired_iff h

/-- A slot with the expiry of the put has expired when the put has. -/
theorem isExpired_iff {κ : Type} {sl : Slot κ υ} (hfit : p.Fits policy)
    (hsl : sl.expiresAt = MicroStore.expiresAt p.time p.ttl) {now : UInt32} :
    sl.isExpired now = true ↔ p.ttl ≠ 0 ∧ p.Over policy now := by
  rw [Slot.isExpired, decide_eq_true_eq, hsl]
  constructor
  · rintro ⟨hne, hle⟩
    obtain ⟨httl, hsum⟩ := toNat_expiresAt hfit hne
    rw [UInt32.le_iff_toNat_le, hsum] at hle
    exact ⟨httl, (over_iff httl).2 hle⟩
  · rintro ⟨httl, hover⟩
    rw [over_iff httl] at hover
    have hlt := now.toNat_lt
    have hpos : 0 < p.ttl.toNat := Nat.pos_of_ne_zero fun he => httl (UInt32.toNat_inj.1 he)
    have hsum : (p.time + p.ttl).toNat = p.time.toNat + p.ttl.toNat := by
      rw [UInt32.toNat_add]
      exact Nat.mod_eq_of_lt (by omega)
    rw [MicroStore.expiresAt, if_neg httl]
    refine ⟨fun he => ?_, UInt32.le_iff_toNat_le.2 (by rw [hsum]; exact hover)⟩
    rw [he] at hsum
    change 0 = _ at hsum
    omega

/-- What a flush writes matches the put. -/
theorem matches_flush {κ : Type} {sl : Slot κ υ} (hfit : p.Fits policy) {now : UInt32}
    (htime : p.ttl = 0 ∧ policy = 0 ∨ p.time ≤ now)
    (hsl : sl.expiresAt = MicroStore.expiresAt p.time p.ttl) (hexp : sl.isExpired now = false) :
    p.Matches policy (sl.remainingTtl now) now := by
  have hlive : ¬(p.ttl ≠ 0 ∧ p.Over policy now) := by
    rw [← isExpired_iff hfit hsl, hexp]
    exact Bool.false_ne_true
  rw [Slot.remainingTtl]
  by_cases hz : sl.expiresAt = 0
  · rw [if_pos hz]
    rw [hsl] at hz
    by_cases httl : p.ttl = 0
    · refine ⟨fun now' h => ?_, fun hne => absurd httl hne⟩
      rcases htime with ⟨-, hpol⟩ | hle
      · rw [hpol] at h
        exact absurd h not_expired_zero
      · obtain ⟨hpol, hlt, hdur⟩ := expired_zero.1 h
        have hlt' : p.time < now' := UInt32.lt_of_le_of_lt hle hlt
        rw [Over, httl, expired_zero]
        refine ⟨hpol, hlt', UInt32.le_trans hdur ?_⟩
        rw [UInt32.le_iff_toNat_le, UInt32.toNat_sub_of_le _ _ (UInt32.le_of_lt hlt),
          UInt32.toNat_sub_of_le _ _ (UInt32.le_of_lt hlt')]
        exact Nat.sub_le_sub_left (UInt32.le_iff_toNat_le.1 hle) _
    · -- the sum is `2 ^ 32`: neither ever expires
      have hpos : 0 < p.ttl.toNat := Nat.pos_of_ne_zero fun he => httl (UInt32.toNat_inj.1 he)
      have hsum : policy = 0 ∧ p.time.toNat + p.ttl.toNat = 2 ^ 32 := by
        rcases hfit with h | h | h
        · exact absurd h httl
        · rw [MicroStore.expiresAt, if_neg httl] at hz
          have hadd : (p.time + p.ttl).toNat = p.time.toNat + p.ttl.toNat := by
            rw [UInt32.toNat_add]
            exact Nat.mod_eq_of_lt h
          rw [hz] at hadd
          change 0 = _ at hadd
          omega
        · exact h
      refine ⟨fun now' h => ?_, fun _ now' h => ?_⟩
      · rw [hsum.1] at h
        exact absurd h not_expired_zero
      · rw [over_iff httl, hsum.2] at h
        exact absurd h (Nat.not_le.2 now'.toNat_lt)
  · rw [if_neg hz]
    rw [hsl] at hz
    obtain ⟨httl, hsum⟩ := toNat_expiresAt hfit hz
    rw [not_and, over_iff httl, Nat.not_le] at hlive
    have hlt := hlive httl
    have hnow : now < sl.expiresAt := by
      rw [hsl, UInt32.lt_iff_toNat_lt, hsum]
      exact hlt
    rw [if_pos hnow]
    have hsub : (sl.expiresAt - now).toNat = p.time.toNat + p.ttl.toNat - now.toNat := by
      rw [UInt32.toNat_sub_of_le _ _ (UInt32.le_of_lt hnow), hsl, hsum]
    have hne : sl.expiresAt - now ≠ 0 := by
      intro he
      rw [he] at hsub
      change 0 = _ at hsub
      omega
    have hiff (now' : UInt32) : Expired (sl.expiresAt - now) policy now now' ↔ p.Over policy now' := by
      rw [expired_iff hne, over_iff httl, hsub]
      omega
    exact ⟨fun now' => (hiff now').1, fun _ now' => (hiff now').2⟩

end TieredPut

namespace Tiered

/-! ## Where a put is

One key at a time.  The slot counts if there is one; what is below may be an older copy, which the
next flush replaces. -/

section tracks

variable {κ υ σ : Type}

/-- The record `d` of the store below is a copy of the put, or that has expired. -/
def Copied (ty : Typed κ υ) (policy now : UInt32) (p : TieredPut υ) (d : Option RawRecord) : Prop :=
  ∃ ttl ts, p.Matches policy ttl ts ∧
    (∀ r, d = some r → r = ⟨ty.valueCodec.encode p.value, ttl, ts⟩) ∧
    (¬Expired ttl policy ts now → d = some ⟨ty.valueCodec.encode p.value, ttl, ts⟩)

/-- Which properties of a run are kept track of besides: that the slots have the expiry of the puts
(`exact`), that the store below still has what a changed slot replaces (`backed`), and that nothing ever
expires (`timeless`). -/
structure Aspects where
  /-- Slots expire when their puts do. -/
  exact : Prop
  /-- A changed slot replaces what is still in the store below. -/
  backed : Prop
  /-- Nothing ever expires. -/
  timeless : Prop

/-- What is known of one key: `q` is the last put, if it has not been removed, `o` the slot and `d` the
record in the store below.  The put is in the slot; if that is clean or there is none, it is in the
store below. -/
structure Placed (ty : Typed κ υ) (policy : UInt32) (asp : Aspects) (now : UInt32)
    (q : Option (TieredPut υ)) (o : Option (Slot κ υ)) (d : Option RawRecord) : Prop where
  /-- What is said not to be below is not. -/
  fresh : ∀ sl, o = some sl → sl.inL2 = false → d = none
  /-- A slot holds the last put, and if it is clean the store below has a copy. -/
  cached : ∀ sl, o = some sl → ∃ p, q = some p ∧ sl.value = p.value ∧
    (sl.expiresAt = MicroStore.expiresAt p.time p.ttl ∨
      ¬asp.exact ∧ sl.dirty = false ∧ sl.expiresAt = 0) ∧
    (sl.dirty = false → Copied ty policy now p d)
  /-- Without a slot the store below has a copy. -/
  kept : ∀ p, q = some p → o = none → Copied ty policy now p d
  /-- What has been removed is nowhere. -/
  gone : q = none → o = none ∧ d = none
  /-- The put does not wrap, and it was not put in the future. -/
  fits : ∀ p, q = some p → p.Fits policy ∧ (p.ttl = 0 ∧ policy = 0 ∨ p.time ≤ now)
  /-- The older copy of a changed slot is still there. -/
  backed : asp.backed → ∀ sl, o = some sl → sl.dirty = true → sl.inL2 = true →
    sl.isExpired now = false → ∃ r, d = some r ∧ ¬r.Over policy now
  /-- Nothing has a TTL, and a slot that says its key is below is right. -/
  timeless : asp.timeless → (∀ p, q = some p → p.ttl = 0 ∧ policy = 0) ∧
    (∀ r, d = some r → r.ttl = 0 ∧ policy = 0) ∧ ∀ sl, o = some sl → sl.inL2 = true → d.isSome

/-- What is known of all keys, and that the store below has no others. -/
structure Tracks (ty : Typed κ υ) (policy : UInt32) (asp : Aspects) (now : UInt32)
    (puts : κ → Option (TieredPut υ)) (c : κ → Option (Slot κ υ)) (m : Holdings) : Prop where
  /-- Each key is where it should be. -/
  placed : ∀ k, Placed ty policy asp now (puts k) (c k) (m (ty.keyCodec.encode k))
  /-- The store below has no keys but encoded ones. -/
  keys : ∀ raw, (m raw).isSome → ∃ k, raw = ty.keyCodec.encode k

variable {ty : Typed κ υ} {policy now : UInt32} {asp : Aspects} {puts : κ → Option (TieredPut υ)}
  {c : κ → Option (Slot κ υ)} {m m' : Holdings} {p : TieredPut υ} {q : Option (TieredPut υ)}
  {o : Option (Slot κ υ)} {d d' : Option RawRecord}

/-- Nothing of the record is left, but the put has expired. -/
theorem Copied.of_over (hover : p.Over policy now) : Copied ty policy now p none :=
  ⟨p.ttl, p.time, .self policy p, nofun, fun h => absurd hover h⟩

/-- What the store below shows of a copied put. -/
theorem Copied.shown (h : Copied ty policy now p d) :
    (∀ r, d = some r → ¬r.Over policy now →
      r.value = ty.valueCodec.encode p.value ∧ (p.ttl ≠ 0 → ¬p.Over policy now)) ∧
    ((∀ r, d = some r → r.Over policy now) → p.Over policy now) := by
  obtain ⟨ttl, ts, hmatch, hle, hlive⟩ := h
  refine ⟨fun r hr hexp => ?_, fun hall => ?_⟩
  · obtain rfl := hle r hr
    exact ⟨rfl, fun httl hover => hexp (hmatch.exact httl now hover)⟩
  · by_contra hover
    have hexp : ¬Expired ttl policy ts now := fun he => hover (hmatch.dead now he)
    exact hexp (hall _ (hlive hexp))

/-- The store below may forget the record if it has expired. -/
theorem Placed.shrink (h : Placed ty policy asp now q o d) (hle : ∀ r, d' = some r → d = some r)
    (hkeep : ∀ r, d = some r → ¬r.Over policy now → d' = some r) :
    Placed ty policy asp now q o d' where
  fresh sl ho hin := by
    cases hd : d' with
    | none => rfl
    | some r => cases (h.fresh sl ho hin).symm.trans (hle r hd)
  cached sl ho := by
    obtain ⟨p, hp, hv, hexp, hclean⟩ := h.cached sl ho
    refine ⟨p, hp, hv, hexp, fun hd => ?_⟩
    obtain ⟨ttl, ts, hmatch, hall, hlive⟩ := hclean hd
    exact ⟨ttl, ts, hmatch, fun r hr => hall r (hle r hr), fun he => hkeep _ (hlive he) he⟩
  kept p hp ho := by
    obtain ⟨ttl, ts, hmatch, hall, hlive⟩ := h.kept p hp ho
    exact ⟨ttl, ts, hmatch, fun r hr => hall r (hle r hr), fun he => hkeep _ (hlive he) he⟩
  gone hq := by
    refine ⟨(h.gone hq).1, ?_⟩
    cases hd : d' with
    | none => rfl
    | some r => cases (h.gone hq).2.symm.trans (hle r hd)
  fits := h.fits
  backed hb sl ho hd hin hexp := by
    obtain ⟨r, hr, hover⟩ := h.backed hb sl ho hd hin hexp
    exact ⟨r, hkeep r hr hover, hover⟩
  timeless ht := by
    obtain ⟨hputs, hm, hflag⟩ := h.timeless ht
    refine ⟨hputs, fun r hr => hm r (hle r hr), fun sl ho hin => ?_⟩
    obtain ⟨r, hr⟩ := Option.isSome_iff_exists.1 (hflag sl ho hin)
    refine Option.isSome_iff_exists.2 ⟨r, hkeep r hr ?_⟩
    rw [RawRecord.Over, (hm r hr).1, (hm r hr).2]
    exact TieredPut.not_expired_zero

/-- A slot that has expired holds a put that has. -/
theorem Placed.over_of_isExpired {sl : Slot κ υ} (h : Placed ty policy asp now q (some sl) d)
    (hexp : sl.isExpired now = true) :
    ∀ p, q = some p → p.Over policy now := by
  intro p hp
  obtain ⟨p', hp', -, hat, -⟩ := h.cached sl rfl
  obtain rfl := Option.some.inj (hp.symm.trans hp')
  rcases hat with hat | ⟨-, -, hz⟩
  · exact ((TieredPut.isExpired_iff (h.fits p hp).1 hat).1 hexp).2
  · rw [Slot.isExpired, hz, decide_eq_true_eq] at hexp
    exact absurd rfl hexp.1

/-- The slot has expired, and nothing is left of it. -/
theorem Placed.expire {sl : Slot κ υ} (h : Placed ty policy asp now q (some sl) d)
    (hexp : sl.isExpired now = true) : Placed ty policy asp now q none none := by
  refine ⟨nofun, nofun, fun p hp _ => ?_, fun hq => ⟨rfl, rfl⟩, h.fits, fun _ => nofun, fun ht =>
    ⟨(h.timeless ht).1, nofun, nofun⟩⟩
  exact .of_over (h.over_of_isExpired hexp p hp)

/-- The slot has been flushed. -/
theorem Placed.flush {sl : Slot κ υ} (h : Placed ty policy asp now q (some sl) d)
    (hexp : sl.isExpired now = false) (hd : sl.dirty = true) : Placed ty policy asp now q (some sl.flushed)
      (some ⟨ty.valueCodec.encode sl.value, sl.remainingTtl now, now⟩) := by
  obtain ⟨p, hp, hv, hat, -⟩ := h.cached sl rfl
  have hat : sl.expiresAt = MicroStore.expiresAt p.time p.ttl :=
    hat.resolve_right fun hno => by
      rw [hd] at hno
      cases hno.2.1
  refine ⟨fun sl' ho hin => ?_, fun sl' ho => ?_, nofun, fun hq => ?_, h.fits, fun _ sl' ho hdirty => ?_,
    fun ht => ⟨(h.timeless ht).1, fun r hr => ?_, fun _ _ _ => rfl⟩⟩
  · obtain rfl := Option.some.inj ho
    cases hin
  · obtain rfl := Option.some.inj ho
    refine ⟨p, hp, hv, .inl hat, fun _ => ⟨sl.remainingTtl now, now, ?_, fun r hr => ?_,
      fun _ => ?_⟩⟩
    · exact TieredPut.matches_flush (h.fits p hp).1 (h.fits p hp).2 hat hexp
    · rw [← Option.some.inj hr, hv]
    · rw [hv]
  · cases hp.symm.trans hq
  · obtain rfl := Option.some.inj ho
    cases hdirty
  · obtain rfl := Option.some.inj hr
    obtain ⟨httl, hpol⟩ := (h.timeless ht).1 p hp
    refine ⟨?_, hpol⟩
    rw [Slot.remainingTtl, hat, MicroStore.expiresAt, if_pos httl, if_pos rfl]

/-- A clean slot has been dropped. -/
theorem Placed.drop {sl : Slot κ υ} (h : Placed ty policy asp now q (some sl) d)
    (hd : sl.dirty = false) : Placed ty policy asp now q none d := by
  obtain ⟨p, hp, -, -, hclean⟩ := h.cached sl rfl
  refine ⟨nofun, nofun, fun p' hp' _ => ?_, fun hq => ?_, h.fits, fun _ => nofun, fun ht =>
    ⟨(h.timeless ht).1, (h.timeless ht).2.1, nofun⟩⟩
  · obtain rfl := Option.some.inj (hp.symm.trans hp')
    exact hclean hd
  · cases hp.symm.trans hq

/-- The key has been removed. -/
theorem Placed.removed : Placed ty policy asp now none none none :=
  ⟨nofun, nofun, nofun, fun _ => ⟨rfl, rfl⟩, nofun, fun _ => nofun, fun _ => ⟨nofun, nofun, nofun⟩⟩

/-- The key has been put. -/
theorem Placed.put {k : κ} {v : υ} {ttl : UInt32} {priority : UInt8} {inL2 : Bool}
    (hfit : TieredPut.Fits policy ⟨v, now, ttl⟩) (hb : ¬asp.backed)
    (ht : asp.timeless → ttl = 0 ∧ policy = 0 ∧ ∀ r, d = some r → r.ttl = 0)
    (hin : inL2 = false → d = none) (hyes : asp.timeless → inL2 = true → d.isSome) :
    Placed ty policy asp now (some ⟨v, now, ttl⟩) (some (putSlot now k v ttl priority inL2)) d := by
  refine ⟨fun sl ho hno => ?_, fun sl ho => ?_, nofun, nofun, fun p hp => ?_, fun h => absurd h hb,
    fun h => ⟨fun p hp => ?_, fun r hr => ⟨(ht h).2.2 r hr, (ht h).2.1⟩, fun sl ho hsl => ?_⟩⟩
  · obtain rfl := Option.some.inj ho
    exact hin hno
  · obtain rfl := Option.some.inj ho
    exact ⟨_, rfl, rfl, .inl rfl, nofun⟩
  · obtain rfl := Option.some.inj hp
    exact ⟨hfit, .inr (UInt32.le_refl _)⟩
  · obtain rfl := Option.some.inj hp
    exact ⟨(ht h).1, (ht h).2.1⟩
  · obtain rfl := Option.some.inj ho
    exact hyes h hsl

/-- The key has been promoted. -/
theorem Placed.promote {k : κ} (h : Placed ty policy asp now (some p) none d)
    (hat : asp.exact → MicroStore.expiresAt p.time p.ttl = 0) :
    Placed ty policy asp now (some p) (some (promoted k p.value)) d := by
  have hcopy := h.kept p rfl rfl
  refine ⟨fun sl ho hno => ?_, fun sl ho => ?_, nofun, nofun, h.fits, fun _ sl ho hd => ?_,
    fun ht => ⟨(h.timeless ht).1, (h.timeless ht).2.1, fun _ _ _ => ?_⟩⟩
  · obtain rfl := Option.some.inj ho
    cases hno
  · obtain rfl := Option.some.inj ho
    refine ⟨p, rfl, rfl, ?_, fun _ => hcopy⟩
    by_cases hx : asp.exact
    · exact .inl (hat hx).symm
    · exact .inr ⟨hx, rfl, rfl⟩
  · obtain rfl := Option.some.inj ho
    cases hd
  · obtain ⟨httl, hpol⟩ := (h.timeless ht).1 p rfl
    by_contra hnone
    have hover := hcopy.shown.2 fun r hr => absurd (Option.isSome_iff_exists.2 ⟨r, hr⟩) hnone
    rw [TieredPut.Over, httl, hpol] at hover
    exact TieredPut.not_expired_zero hover

/-- Time goes by. -/
theorem Placed.later {now' : UInt32} (h : Placed ty policy asp now q o d) (hb : ¬asp.backed)
    (hle : now ≤ now' ∨ asp.timeless) : Placed ty policy asp now' q o d := by
  have hcopy {p : TieredPut υ} (hp : q = some p) (hc : Copied ty policy now p d) :
      Copied ty policy now' p d := by
    obtain ⟨ttl, ts, hmatch, hall, hlive⟩ := hc
    refine ⟨ttl, ts, hmatch, hall, fun hexp => ?_⟩
    rcases hle with hle | ht
    · exact hlive fun he => hexp (he.mono hle)
    · by_cases he : Expired ttl policy ts now
      · have hover := hmatch.dead now he
        obtain ⟨httl, hpol⟩ := (h.timeless ht).1 p hp
        rw [TieredPut.Over, httl, hpol] at hover
        exact absurd hover TieredPut.not_expired_zero
      · exact hlive he
  refine ⟨h.fresh, fun sl ho => ?_, fun p hp ho => hcopy hp (h.kept p hp ho), h.gone, fun p hp => ?_,
    fun h => absurd h hb, h.timeless⟩
  · obtain ⟨p, hp, hv, hat, hclean⟩ := h.cached sl ho
    exact ⟨p, hp, hv, hat, fun hd => hcopy hp (hclean hd)⟩
  · refine ⟨(h.fits p hp).1, ?_⟩
    rcases hle with hle | ht
    · exact (h.fits p hp).2.imp_right fun h => UInt32.le_trans h hle
    · exact .inl ((h.timeless ht).1 p hp)

end tracks

end Tiered

end MicroStore
