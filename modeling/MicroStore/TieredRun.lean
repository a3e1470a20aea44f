import MicroStore.TieredMap

/-!
# Runs of a tiered store

Every operation of a tiered store over a lawful store keeps track of the puts (`Tiered.Kept`), so after
any run the two tiers together are the map of the last puts.

## What is here

* `RoundTrips` — what is assumed of the codecs: decoding undoes encoding.  Encoded keys are then
  different for different keys, so the store below does not confuse them.
* `Traces`, `traces_upkeep` — where the puts are is preserved by what the operations do on the way:
  dropping expired slots, flushing, evicting.
* `Kept` — the invariant between two operations: well-formed slots that keep track of the puts.
* `Kept.wp_put`, `wp_get`, `wp_exists`, `wp_remove`, `wp_sync`, `wp_clear` — one lemma for each
  operation, with its answer and the invariant afterwards.
* `Sees` — what a lookup may answer about a put: it is found unless it is over, and what is found is not
  over if slots expire with their puts.
* `Kept.wp_size`, `Kept.wp_iterate` — the views of all keys, which join the slots and the store below.

The lemmas are stated for one time; that time passes between two operations is `Kept.later`.
-/

set_option autoImplicit false

namespace MicroStore

namespace Tiered

variable {κ υ σ : Type} [DecidableEq κ] [Inhabited κ] [Inhabited υ]

/-- The codecs decode what they encode. -/
structure RoundTrips (ty : Typed κ υ) : Prop where
  /-- Keys decode to themselves. -/
  key : ∀ k, ty.keyCodec.decode (ty.keyCodec.encode k) = some k
  /-- Values decode to themselves. -/
  value : ∀ v, ty.valueCodec.decode (ty.valueCodec.encode v) = some v

section steps

variable {ty : Typed κ υ} {R : StoreRel σ} {policy now : UInt32} {accepts : Bytes → Bytes → Prop}
  {Rep : σ → Holdings → Prop} {asp : Aspects} {puts : κ → Option (TieredPut υ)}
  {c : κ → Option (Slot κ υ)} {m m' : Holdings} {t : Tiered κ υ} {s : σ}

omit [DecidableEq κ] [Inhabited κ] [Inhabited υ] in
/-- Different keys have different encodings. -/
theorem RoundTrips.inj (hty : RoundTrips ty) {k k' : κ}
    (h : ty.keyCodec.encode k = ty.keyCodec.encode k') : k = k' := by
  have hk := hty.key k
  rw [h, hty.key] at hk
  exact (Option.some.inj hk).symm

omit [Inhabited κ] [Inhabited υ] in
/-- A change at one key. -/
theorem Tracks.update (hty : RoundTrips ty) (h : Tracks ty policy asp now puts c m) (k : κ)
    {q : Option (TieredPut υ)} {o : Option (Slot κ υ)} {d : Option RawRecord}
    (hk : Placed ty policy asp now q o d) :
    Tracks ty policy asp now (Function.update puts k q) (Function.update c k o)
      (Function.update m (ty.keyCodec.encode k) d) := by
  refine ⟨fun k' => ?_, fun raw hraw => ?_⟩
  · by_cases he : k' = k
    · rw [he, Function.update_self, Function.update_self, Function.update_self]
      exact hk
    · rw [Function.update_of_ne he, Function.update_of_ne he,
        Function.update_of_ne fun hinj => he (hty.inj hinj)]
      exact h.placed k'
  · by_cases he : raw = ty.keyCodec.encode k
    · exact ⟨k, he⟩
    · rw [Function.update_of_ne he] at hraw
      exact h.keys raw hraw

omit [Inhabited κ] [Inhabited υ] in
/-- A change of a slot and of the record below it. -/
theorem Tracks.move (hty : RoundTrips ty) (h : Tracks ty policy asp now puts c m) (k : κ)
    {o : Option (Slot κ υ)} {d : Option RawRecord} (hk : Placed ty policy asp now (puts k) o d) :
    Tracks ty policy asp now puts (Function.update c k o)
      (Function.update m (ty.keyCodec.encode k) d) := by
  have hmove := h.update hty k hk
  rwa [Function.update_eq_self] at hmove

omit [DecidableEq κ] [Inhabited κ] [Inhabited υ] in
/-- The store below may forget what has expired. -/
theorem Tracks.shrink (h : Tracks ty policy asp now puts c m) (hs : m.Shrinks policy False now m') :
    Tracks ty policy asp now puts c m' where
  placed k := (h.placed k).shrink (hs.le _) (hs.keeps not_false _)
  keys raw hraw := by
    obtain ⟨r, hr⟩ := Option.isSome_iff_exists.1 hraw
    exact h.keys raw (Option.isSome_iff_exists.2 ⟨r, hs.le raw r hr⟩)

/-- What the state of the store below and the slots say together. -/
def Traces (ty : Typed κ υ) (policy : UInt32) (asp : Aspects) (now : UInt32) (Rep : σ → Holdings → Prop)
    (puts : κ → Option (TieredPut υ)) (c : κ → Option (Slot κ υ)) (s : σ) : Prop :=
  ∃ m, Rep s m ∧ Tracks ty policy asp now puts c m

omit [Inhabited κ] [Inhabited υ] in
/-- Eviction and expiry keep track of the puts. -/
theorem traces_upkeep (hty : RoundTrips ty) (hR : R.Lawful policy False accepts now Rep) :
    Upkeep ty R now (Traces ty policy asp now Rep puts) where
  isValid c s r s' := by
    rintro ⟨m, hm, h⟩ hr
    obtain ⟨hr, hm⟩ := hR.isValid hm hr
    exact ⟨hr, m, hm, h⟩
  «exists» c s k r s' := by
    rintro ⟨m, hm, h⟩ hr
    obtain ⟨-, m', hm', hs, -⟩ := hR.exists hm hr
    exact ⟨m', hm', h.shrink hs⟩
  get c s k r s' := by
    rintro ⟨m, hm, h⟩ hr
    obtain ⟨-, m', hm', hs⟩ := hR.get hm hr
    exact ⟨m', hm', h.shrink hs⟩
  expire c s k sl := by
    rintro ⟨m, hm, h⟩ hk hexp
    have hp := h.placed k
    rw [hk] at hp
    refine ⟨fun hin => ⟨m, hm, ?_⟩, fun _ r s' hr => ?_⟩
    · have hmove := h.move hty k (hp.expire hexp)
      rwa [← hp.fresh sl rfl hin, Function.update_eq_self] at hmove
    · obtain ⟨m', hm', hs⟩ := hR.remove hm hr
      exact ⟨m', hm', (h.move hty k (hp.expire hexp)).shrink hs⟩
  flush c s k sl r s' := by
    rintro ⟨m, hm, h⟩ hk hkey hexp hd hr
    have hp := h.placed k
    rw [hk] at hp
    obtain ⟨-, m', hm', hs⟩ := hR.put hm hr
    refine ⟨m', hm', ?_⟩
    cases r with
    | true =>
      rw [if_pos rfl, hkey] at hs
      exact (h.move hty k (hp.flush hexp hd)).shrink hs
    | false => exact h.shrink hs
  drop c s k sl := by
    rintro ⟨m, hm, h⟩ hk _ hd
    have hp := h.placed k
    rw [hk] at hp
    refine ⟨m, hm, ?_⟩
    have hmove := h.move hty k (hp.drop hd)
    rwa [Function.update_eq_self] at hmove

/-- Between two operations: the threads are right, and the puts are kept track of. -/
structure Kept (ty : Typed κ υ) (policy : UInt32) (asp : Aspects) (now : UInt32)
    (Rep : σ → Holdings → Prop) (puts : κ → Option (TieredPut υ)) (t : Tiered κ υ) (s : σ) : Prop where
  /-- The slots are well formed. -/
  wf : Wf ty t
  /-- They keep track of the puts. -/
  traces : Traces ty policy asp now Rep puts (cell ty t) s

/-- Time passes. -/
theorem Kept.later {now' : UInt32} (h : Kept ty policy asp now Rep puts t s) (hb : ¬asp.backed)
    (hle : now ≤ now' ∨ asp.timeless) : Kept ty policy asp now' Rep puts t s := by
  obtain ⟨m, hm, htr⟩ := h.traces
  exact ⟨h.wf, m, hm, fun k => (htr.placed k).later hb hle, htr.keys⟩

/-- The first state. -/
theorem kept_new (hm : Rep s fun _ => none) : Kept ty policy asp now Rep (fun _ => none) new s where
  wf := wf_new
  traces := ⟨_, hm, fun _ => .removed, nofun⟩

/-- A put that succeeds. -/
theorem Kept.wp_put (hty : RoundTrips ty) (hR : R.Lawful policy False accepts now Rep)
    (h : Kept ty policy asp now Rep puts t s) (hb : ¬asp.backed) {k : κ} {v : υ} {ttl : UInt32}
    {priority : UInt8} (hfit : TieredPut.Fits policy ⟨v, now, ttl⟩)
    (ht : asp.timeless → ttl = 0 ∧ policy = 0) :
    R.wp (put ty now t k v ttl priority) (fun x s' => Kept ty policy asp now Rep
        (if x.1 = true then Function.update puts k (some ⟨v, now, ttl⟩) else puts) x.2 s' ∧
      ((∀ k v, accepts (ty.keyCodec.encode k) (ty.valueCodec.encode v)) → 0 < ty.cacheSize.toNat →
        x.1 = true)) s := by
  have hU : Upkeep ty R now (Traces ty policy asp now Rep puts) := traces_upkeep hty hR
  refine Tiered.wp_put hU h.wf h.traces (fun c s' sl t' hj hk hwf hcell => ⟨⟨hwf, ?_⟩, fun _ _ => rfl⟩)
    (fun c s₁ inL2 s' t' hj hk hr _ hwf hcell => ⟨⟨hwf, ?_⟩, fun _ _ => rfl⟩)
    fun s' hj _ _ href => ⟨⟨h.wf, hj⟩, fun hall hpos => ?_⟩
  · obtain ⟨m, hm, htr⟩ := hj
    have hp := htr.placed k
    rw [hk] at hp
    have hput : Placed ty policy asp now (some ⟨v, now, ttl⟩)
        (some (putSlot now k v ttl priority sl.inL2)) (m (ty.keyCodec.encode k)) :=
      .put hfit hb (fun h => ⟨(ht h).1, (ht h).2, fun r hr => ((hp.timeless h).2.1 r hr).1⟩)
        (hp.fresh sl rfl) fun h => (hp.timeless h).2.2 sl rfl
    have hupdate := htr.update hty k hput
    rw [Function.update_eq_self] at hupdate
    rw [hcell]
    exact ⟨m, hm, hupdate⟩
  · obtain ⟨m, hm, htr⟩ := hj
    obtain ⟨hr, m', hm', hs, hnone⟩ := hR.exists hm hr
    have hp := (htr.shrink hs).placed k
    have hput : Placed ty policy asp now (some ⟨v, now, ttl⟩)
        (some (putSlot now k v ttl priority inL2)) (m' (ty.keyCodec.encode k)) := by
      refine .put hfit hb (fun h => ⟨(ht h).1, (ht h).2, fun r hr => ((hp.timeless h).2.1 r hr).1⟩)
        hnone fun h hin => ?_
      rw [hin] at hr
      obtain ⟨rec, hrec⟩ := Option.isSome_iff_exists.1 hr.symm
      obtain ⟨hrec, hover⟩ := Holdings.shown_eq_some.1 hrec
      exact Option.isSome_iff_exists.2 ⟨rec, hs.keeps not_false _ rec hrec hover⟩
    have hupdate := (htr.shrink hs).update hty k hput
    rw [Function.update_eq_self] at hupdate
    rw [hcell]
    exact ⟨m', hm', hupdate⟩
  · obtain ⟨hfree, hlast⟩ := href
    cases hl : t.lru.getLast? with
    | none => exact absurd (List.getLast?_eq_none_iff.1 hl) (h.wf.lru_ne_nil hpos hfree)
    | some i =>
      obtain ⟨-, -, s₁, s₂, ⟨m, hm, -⟩, hr⟩ := hlast i hl
      exact ((hR.put hm hr).1.2 (hall _ _))

/-- What a lookup says of a put: `found` tells whether it succeeds. -/
structure Sees (policy now : UInt32) (asp : Aspects) (q : Option (TieredPut υ)) (found : Bool) :
    Prop where
  /-- What is found was put, and is not over. -/
  yes : found = true → ∃ p, q = some p ∧ (asp.exact → p.ttl ≠ 0 → ¬p.Over policy now)
  /-- What is not found is over. -/
  no : found = false → ∀ p, q = some p → p.Over policy now

omit [DecidableEq κ] [Inhabited κ] [Inhabited υ] in
/-- A slot that has not expired holds a put that has not, if it has its expiry. -/
theorem Placed.sees_of_isExpired {q : Option (TieredPut υ)} {sl : Slot κ υ} {d : Option RawRecord}
    (h : Placed ty policy asp now q (some sl) d) (hexp : sl.isExpired now = false) :
    ∃ p, q = some p ∧ sl.value = p.value ∧ (asp.exact → p.ttl ≠ 0 → ¬p.Over policy now) := by
  obtain ⟨p, hp, hv, hat, -⟩ := h.cached sl rfl
  refine ⟨p, hp, hv, fun hx httl hover => ?_⟩
  have hat := hat.resolve_right fun hno => hno.1 hx
  have := (TieredPut.isExpired_iff (h.fits p hp).1 hat).2 ⟨httl, hover⟩
  rw [hexp] at this
  cases this

omit [DecidableEq κ] [Inhabited κ] [Inhabited υ] in
/-- The store below shows nothing of the key. -/
theorem Tracks.over_of_shown {k : κ} (h : Tracks ty policy asp now puts c m) (hk : c k = none)
    (hno : m.shown policy now (ty.keyCodec.encode k) = none) :
    ∀ p, puts k = some p → p.Over policy now := by
  intro p hp
  refine ((h.placed k).kept p hp hk).shown.2 fun r hr => ?_
  by_contra hover
  cases hno.symm.trans (Holdings.shown_eq_some.2 ⟨hr, hover⟩)

omit [DecidableEq κ] [Inhabited κ] [Inhabited υ] in
/-- The store below shows a record of the key. -/
theorem Tracks.sees_of_shown {k : κ} (h : Tracks ty policy asp now puts c m) (hk : c k = none)
    {r : RawRecord} (hr : m.shown policy now (ty.keyCodec.encode k) = some r) :
    ∃ p, puts k = some p ∧ r.value = ty.valueCodec.encode p.value ∧
      (p.ttl ≠ 0 → ¬p.Over policy now) := by
  obtain ⟨hr, hover⟩ := Holdings.shown_eq_some.1 hr
  cases hp : puts k with
  | none => cases ((h.placed k).gone hp).2.symm.trans hr
  | some p => exact ⟨p, rfl, ((h.placed k).kept p hp hk).shown.1 r hr hover⟩

/-- A lookup.  The expiries are kept if it promotes nothing that will expire. -/
theorem Kept.wp_get (hty : RoundTrips ty) (hR : R.Lawful policy False accepts now Rep)
    (h : Kept ty policy asp now Rep puts t s) {k : κ} :
    R.wp (get ty now t k) (fun x s' => ((asp.exact → cell ty t k = none → ∀ p, puts k = some p →
        MicroStore.expiresAt p.time p.ttl = 0 ∨ p.Over policy now) →
        Kept ty policy asp now Rep puts x.2 s') ∧
      Sees policy now asp (puts k) x.1.isSome ∧ ∀ v, x.1 = some v → ∃ p, puts k = some p ∧ v = p.value)
      s := by
  have hU : Upkeep ty R now (Traces ty policy asp now Rep puts) := traces_upkeep hty hR
  obtain ⟨m₀, hm₀, htr₀⟩ := h.traces
  refine Tiered.wp_get hU h.wf h.traces (fun s' sl t' hj hk hexp hwf => ?_)
    (fun s' sl t' hj hk hexp hwf => ?_) (fun s₁ s' hj hj' hk hr => ?_)
    (fun s₁ raw s' hj _ hk hr hdec => ?_)
    fun s₁ raw s₂ v hj hk hr hdec c t' s' hj' hck hwf hcell => ?_
  · have hp := htr₀.placed k
    rw [hk] at hp
    exact ⟨fun _ => ⟨hwf, hj⟩, ⟨nofun, fun _ => hp.over_of_isExpired hexp⟩, nofun⟩
  · have hp := htr₀.placed k
    rw [hk] at hp
    obtain ⟨p, hput, hv, hsees⟩ := hp.sees_of_isExpired hexp
    refine ⟨fun _ => ⟨hwf, hj⟩, ⟨fun _ => ⟨p, hput, hsees⟩, nofun⟩, fun v hv' => ⟨p, hput, ?_⟩⟩
    rw [← Option.some.inj hv', hv]
  · obtain ⟨m, hm, htr⟩ := hj
    obtain ⟨hr, -⟩ := hR.get hm hr
    have hno := Option.map_eq_none_iff.1 hr.symm
    exact ⟨fun _ => ⟨h.wf, hj'⟩, ⟨nofun, fun _ => htr.over_of_shown hk hno⟩, nofun⟩
  · obtain ⟨m, hm, htr⟩ := hj
    obtain ⟨hr, -⟩ := hR.get hm hr
    obtain ⟨rec, hrec, rfl⟩ := Option.map_eq_some_iff.1 hr.symm
    obtain ⟨p, -, hv, -⟩ := htr.sees_of_shown hk hrec
    rw [hv, hty.value] at hdec
    cases hdec
  · obtain ⟨m, hm, htr⟩ := hj
    obtain ⟨hr, -⟩ := hR.get hm hr
    obtain ⟨rec, hrec, rfl⟩ := Option.map_eq_some_iff.1 hr.symm
    obtain ⟨p, hput, hv, hlive⟩ := htr.sees_of_shown hk hrec
    rw [hv, hty.value] at hdec
    obtain rfl := Option.some.inj hdec
    refine ⟨fun hprom => ⟨hwf, ?_⟩, ⟨fun _ => ⟨p, hput, fun _ => hlive⟩, nofun⟩, fun v hv' => ⟨p, hput, ?_⟩⟩
    · obtain ⟨m', hm', htr'⟩ := hj'
      rcases hcell with hcell | hcell
      · exact ⟨m', hm', hcell ▸ htr'⟩
      · have hp := htr'.placed k
        rw [hck, hput] at hp
        have hat (hx : asp.exact) : MicroStore.expiresAt p.time p.ttl = 0 := by
          rcases hprom hx hk p hput with hz | hover
          · exact hz
          · by_cases httl : p.ttl = 0
            · exact if_pos httl
            · exact absurd hover (hlive httl)
        have hpromote : Placed ty policy asp now (puts k) (some (promoted k p.value))
            (m' (ty.keyCodec.encode k)) := by
          rw [hput]
          exact hp.promote hat
        have hmove := htr'.move hty k hpromote
        rw [Function.update_eq_self] at hmove
        exact ⟨m', hm', hcell ▸ hmove⟩
    · exact (Option.some.inj hv').symm

/-- `exists`. -/
theorem Kept.wp_exists (hty : RoundTrips ty) (hR : R.Lawful policy False accepts now Rep)
    (h : Kept ty policy asp now Rep puts t s) {k : κ} :
    R.wp (Tiered.exists ty now t k) (fun x s' => Kept ty policy asp now Rep puts x.2 s' ∧
      Sees policy now asp (puts k) x.1) s := by
  have hU : Upkeep ty R now (Traces ty policy asp now Rep puts) := traces_upkeep hty hR
  obtain ⟨m₀, hm₀, htr₀⟩ := h.traces
  refine Tiered.wp_exists hU h.wf h.traces (fun s' sl t' hj hk hexp hwf => ?_)
    (fun s' sl hj hk hexp => ?_) fun s₁ r s' hj hj' hk hr => ⟨⟨h.wf, hj'⟩, ?_⟩
  · have hp := htr₀.placed k
    rw [hk] at hp
    exact ⟨⟨hwf, hj⟩, ⟨nofun, fun _ => hp.over_of_isExpired hexp⟩⟩
  · have hp := htr₀.placed k
    rw [hk] at hp
    obtain ⟨p, hput, -, hsees⟩ := hp.sees_of_isExpired hexp
    exact ⟨⟨h.wf, hj⟩, ⟨fun _ => ⟨p, hput, hsees⟩, nofun⟩⟩
  · obtain ⟨m, hm, htr⟩ := hj
    obtain ⟨hr, -⟩ := hR.exists hm hr
    refine ⟨fun hyes => ?_, fun hno => htr.over_of_shown hk ?_⟩
    · rw [hr] at hyes
      obtain ⟨rec, hrec⟩ := Option.isSome_iff_exists.1 hyes
      obtain ⟨p, hput, -, hlive⟩ := htr.sees_of_shown hk hrec
      exact ⟨p, hput, fun _ => hlive⟩
    · rwa [hr, Option.isSome_eq_false_iff, Option.isNone_iff_eq_none] at hno

/-- `remove`. -/
theorem Kept.wp_remove (hty : RoundTrips ty) (hR : R.Lawful policy False accepts now Rep)
    (h : Kept ty policy asp now Rep puts t s) {k : κ} :
    R.wp (remove ty t k) (fun x s' =>
      Kept ty policy asp now Rep (Function.update puts k none) x.2 s') s := by
  have hU : Upkeep ty R now (Traces ty policy asp now Rep puts) := traces_upkeep hty hR
  have hgone {c : κ → Option (Slot κ υ)} {m m' : Holdings} (htr : Tracks ty policy asp now puts c m)
      (hs : Holdings.Shrinks policy False now (Function.update m (ty.keyCodec.encode k) none) m') :
      Tracks ty policy asp now (Function.update puts k none) (Function.update c k none) m' :=
    (htr.update hty k .removed).shrink hs
  have hsame {c : κ → Option (Slot κ υ)} {m : Holdings} (htr : Tracks ty policy asp now puts c m)
      (hm : m (ty.keyCodec.encode k) = none) :
      Tracks ty policy asp now (Function.update puts k none) (Function.update c k none) m := by
    refine hgone htr ?_
    rw [← hm, Function.update_eq_self]
    exact .refl
  have hself (hk : cell ty t k = none) : Function.update (cell ty t) k none = cell ty t :=
    Function.update_eq_self_iff.2 hk.symm
  refine Tiered.wp_remove hU h.wf h.traces (fun s' sl t' hj hk hin hwf hcell => ⟨hwf, ?_⟩)
    (fun s₁ r s' sl t' hj hk _ hwf hcell hr => ⟨hwf, ?_⟩)
    (fun s₁ s' hj _ hk hr => ⟨h.wf, ?_⟩) fun s₁ r s' hj hk hr => ⟨h.wf, ?_⟩
  · obtain ⟨m, hm, htr⟩ := hj
    have hp := htr.placed k
    rw [hk] at hp
    rw [hcell]
    exact ⟨m, hm, hsame htr (hp.fresh sl rfl hin)⟩
  · obtain ⟨m, hm, htr⟩ := hj
    obtain ⟨m', hm', hs⟩ := hR.remove hm hr
    rw [hcell]
    exact ⟨m', hm', hgone htr hs⟩
  · obtain ⟨m, hm, htr⟩ := hj
    obtain ⟨-, m', hm', hs, hnone⟩ := hR.exists hm hr
    have htr' := hsame (htr.shrink hs) (hnone rfl)
    rw [hself hk] at htr'
    exact ⟨m', hm', htr'⟩
  · obtain ⟨m, hm, htr⟩ := hj
    obtain ⟨m', hm', hs⟩ := hR.remove hm hr
    have htr' := hgone htr hs
    rw [hself hk] at htr'
    exact ⟨m', hm', htr'⟩

omit [DecidableEq κ] [Inhabited κ] [Inhabited υ] in
/-- An aspect that is no longer needed is dropped. -/
theorem Placed.forget_backed {q : Option (TieredPut υ)} {o : Option (Slot κ υ)} {d : Option RawRecord}
    (hb : ¬asp.backed) (h : Placed ty policy { asp with backed := True } now q o d) :
    Placed ty policy asp now q o d :=
  ⟨h.fresh, h.cached, h.kept, h.gone, h.fits, fun h => absurd h hb, h.timeless⟩

/-- `sync`, where the store below still has what the changed slots replace. -/
theorem Kept.wp_sync (hty : RoundTrips ty) (hR : R.Lawful policy False accepts now Rep)
    (h : Kept ty policy asp now Rep puts t s) (hb : ¬asp.backed)
    (hback : asp.timeless ∨ ∀ i, (t.slots i).valid = true → (t.slots i).dirty = true →
      (t.slots i).inL2 = true → (t.slots i).isExpired now = false →
      ∃ s', R (.exists (ty.keyCodec.encode (t.slots i).key)) s true s') :
    R.wp (sync ty now t) (fun x s' => Kept ty policy asp now Rep puts x.2 s' ∧
      (x.1 = true → ∀ i, (x.2.slots i).valid = true → (x.2.slots i).dirty = false)) s := by
  have hU : Upkeep ty R now (Traces ty policy { asp with backed := True } now Rep puts) :=
    traces_upkeep hty hR
  have hj : Traces ty policy { asp with backed := True } now Rep puts (cell ty t) s := by
    obtain ⟨m, hm, htr⟩ := h.traces
    refine ⟨m, hm, fun k => ?_, htr.keys⟩
    have hp := htr.placed k
    refine ⟨hp.fresh, hp.cached, hp.kept, hp.gone, hp.fits, fun _ sl hk hd hin hexp => ?_, hp.timeless⟩
    rcases hback with ht | hback
    · obtain ⟨-, hrec, hflag⟩ := hp.timeless ht
      obtain ⟨rec, hr⟩ := Option.isSome_iff_exists.1 (hflag sl hk hin)
      refine ⟨rec, hr, ?_⟩
      rw [RawRecord.Over, (hrec rec hr).1, (hrec rec hr).2]
      exact TieredPut.not_expired_zero
    · obtain ⟨i, hv, hkey, rfl⟩ := h.wf.cell_eq_some.1 hk
      obtain ⟨s', hr⟩ := hback i hv hd hin hexp
      obtain ⟨hr, -⟩ := hR.exists hm hr
      rw [hkey] at hr
      obtain ⟨rec, hrec⟩ := Option.isSome_iff_exists.1 hr.symm
      exact ⟨rec, Holdings.shown_eq_some.1 hrec⟩
  have hforget (c : κ → Option (Slot κ υ)) (s : σ)
      (hj : Traces ty policy { asp with backed := True } now Rep puts c s) :
      Traces ty policy asp now Rep puts c s := by
    obtain ⟨m, hm, htr⟩ := hj
    exact ⟨m, hm, fun k => (htr.placed k).forget_backed hb, htr.keys⟩
  refine StoreRel.wp_call fun r s₀ hr => ?_
  obtain ⟨rfl, hj₀⟩ := hU.isValid _ s r s₀ hj hr
  refine StoreRel.wp_seq (wp_pruneExpired hU h.wf hj₀) ?_
  rintro t₁ s₁ ⟨h₁, hj₁, hlive, -, -⟩
  refine Prog.wp_mono (wp_syncLoop hU ?_ h₁ hj₁ hlive) fun x s' hx => ?_
  swap
  · obtain ⟨h', hj', -, hok⟩ := hx
    exact ⟨⟨h', hforget _ _ hj'⟩, fun hx i hv => (hok hx).2 i (h'.lt i hv).1 hv⟩
  -- what a changed slot replaces is still there
  rintro c s k sl s' ⟨m, hm, htr⟩ hk hexp hd hin hr
  obtain ⟨rec, hrec, hover⟩ := (htr.placed k).backed trivial sl hk hd hin hexp
  obtain ⟨hr, -⟩ := hR.exists hm hr
  rw [Holdings.shown_eq_some.2 ⟨hrec, hover⟩] at hr
  cases hr

/-- `clear`. -/
theorem Kept.wp_clear (hty : RoundTrips ty) (hR : R.Lawful policy False accepts now Rep)
    (h : Kept ty policy asp now Rep puts t s) :
    R.wp (clear t) (fun t' s' => Kept ty policy asp now Rep (fun _ => none) t' s') s := by
  have hU : Upkeep ty R now (Traces ty policy asp now Rep puts) := traces_upkeep hty hR
  refine StoreRel.wp_call fun r s₀ hr => ?_
  obtain ⟨rfl, m, hm, -⟩ := hU.isValid _ s r s₀ h.traces hr
  exact StoreRel.wp_call fun r s₁ hr => kept_new (hR.clear hm hr)

omit [DecidableEq κ] [Inhabited κ] [Inhabited υ] in
/-- When all slots are clean, the store below shows every put that has not expired. -/
theorem Tracks.shown_of_clean {k : κ} {p : TieredPut υ} (h : Tracks ty policy asp now puts c m)
    (hclean : ∀ sl, c k = some sl → sl.dirty = false) (hp : puts k = some p)
    (hlive : ¬p.Over policy now) : ∃ r, m.shown policy now (ty.keyCodec.encode k) = some r ∧
      r.value = ty.valueCodec.encode p.value := by
  have hcopy : Copied ty policy now p (m (ty.keyCodec.encode k)) := by
    cases hc : c k with
    | none => exact (h.placed k).kept p hp hc
    | some sl =>
      obtain ⟨p', hp', -, -, hcopied⟩ := (h.placed k).cached sl hc
      obtain rfl := Option.some.inj (hp.symm.trans hp')
      exact hcopied (hclean sl hc)
  by_contra hno
  refine hlive (hcopy.shown.2 fun r hr => ?_)
  by_contra hover
  exact hno ⟨r, Holdings.shown_eq_some.2 ⟨hr, hover⟩, (hcopy.shown.1 r hr hover).1⟩

omit [DecidableEq κ] [Inhabited κ] [Inhabited υ] in
/-- In a timeless run nothing in the store below expires, and all of it has been put. -/
theorem Tracks.shown_timeless {raw : Bytes} (h : Tracks ty policy asp now puts c m)
    (ht : asp.timeless) (now' : UInt32) : m.shown policy now' raw = m raw := by
  cases hm : m raw with
  | none => rw [Holdings.shown, hm, Option.filter_none]
  | some r =>
    obtain ⟨k, rfl⟩ := h.keys raw (by rw [hm]; rfl)
    obtain ⟨httl, hpol⟩ := ((h.placed k).timeless ht).2.1 r hm
    refine Holdings.shown_eq_some.2 ⟨hm, ?_⟩
    rw [RawRecord.Over, httl, hpol]
    exact TieredPut.not_expired_zero

omit [DecidableEq κ] [Inhabited κ] [Inhabited υ] in
/-- When all slots are clean in a timeless run, the store below holds the puts and nothing else. -/
theorem Tracks.holdings_of_clean (h : Tracks ty policy asp now puts c m) (ht : asp.timeless)
    (hclean : ∀ k sl, c k = some sl → sl.dirty = false) (k : κ) :
    (m (ty.keyCodec.encode k)).map RawRecord.value
      = (puts k).map fun p => ty.valueCodec.encode p.value := by
  cases hp : puts k with
  | none => rw [((h.placed k).gone hp).2, Option.map_none, Option.map_none]
  | some p =>
    have hlive : ¬p.Over policy now := by
      obtain ⟨httl, hpol⟩ := ((h.placed k).timeless ht).1 p hp
      rw [TieredPut.Over, httl, hpol]
      exact TieredPut.not_expired_zero
    obtain ⟨r, hr, hv⟩ := h.shown_of_clean (hclean k) hp hlive
    rw [(Holdings.shown_eq_some.1 hr).1, Option.map_some, Option.map_some, hv]

/-- `size` changes nothing. -/
theorem Kept.size_kept (hty : RoundTrips ty) (hR : R.Lawful policy False accepts now Rep)
    (h : Kept ty policy asp now Rep puts t s) :
    R.wp (size ty t) (fun _ s' => Kept ty policy asp now Rep puts t s') s := by
  have hU : Upkeep ty R now (Traces ty policy asp now Rep puts) := traces_upkeep hty hR
  refine StoreRel.wp_call fun r s₀ hr => ?_
  obtain ⟨rfl, m, hm, htr⟩ := hU.isValid _ s r s₀ h.traces hr
  exact StoreRel.wp_call fun n s₁ hr => ⟨h.wf, m, (hR.size hm hr).1, htr⟩

/-- The iterator drops what has expired. -/
theorem Kept.iterate_kept (hty : RoundTrips ty) (hR : R.Lawful policy False accepts now Rep)
    (h : Kept ty policy asp now Rep puts t s) :
    R.wp (iterate ty now t) (fun x s' => Kept ty policy asp now Rep puts x.2 s') s := by
  have hU : Upkeep ty R now (Traces ty policy asp now Rep puts) := traces_upkeep hty hR
  refine StoreRel.wp_call fun r s₀ hr => ?_
  obtain ⟨rfl, hj₀⟩ := hU.isValid _ s r s₀ h.traces hr
  refine StoreRel.wp_seq (wp_pruneExpired hU h.wf hj₀) fun t₁ s₁ ⟨h₁, ⟨m, hm, htr⟩, _, _, _⟩ => ?_
  exact StoreRel.wp_call fun raws s₂ hr => ⟨h₁, m, (hR.iterate hm hr).1, htr⟩

/-! ## Views

The source counts or yields the slots that are not in the store below, then what the store below has.
A key is in one of the two and not in both. -/

omit [DecidableEq κ] in
/-- The slots that the store below knows nothing of. -/
theorem mem_onlyL1 {i : Nat} (h : Wf ty t) :
    i ∈ onlyL1 ty t ↔ (t.slots i).valid = true ∧ (t.slots i).inL2 = false := by
  rw [onlyL1, List.mem_filter, Bool.and_eq_true, Bool.not_eq_true', List.mem_range]
  exact ⟨fun h => h.2, fun hi => ⟨(h.lt i hi.1).1, hi⟩⟩

/-- The keys of the slots that are not in the store below. -/
theorem onlyL1_keys (h : Wf ty t) : ((onlyL1 ty t).map fun i => (t.slots i).key).Nodup ∧
    ∀ k, k ∈ (onlyL1 ty t).map (fun i => (t.slots i).key) ↔
      ∃ sl, cell ty t k = some sl ∧ sl.inL2 = false := by
  refine ⟨List.Nodup.map_on (fun i hi j hj he => ?_) (List.nodup_range.filter _), fun k => ?_⟩
  · exact h.inj i j ((mem_onlyL1 h).1 hi).1 ((mem_onlyL1 h).1 hj).1 he
  · rw [List.mem_map]
    constructor
    · rintro ⟨i, hi, rfl⟩
      exact ⟨_, h.cell_of_valid ((mem_onlyL1 h).1 hi).1, ((mem_onlyL1 h).1 hi).2⟩
    · rintro ⟨sl, hsl, hin⟩
      obtain ⟨i, hv, hk, rfl⟩ := h.cell_eq_some.1 hsl
      exact ⟨i, (mem_onlyL1 h).2 ⟨hv, hin⟩, hk⟩

/-- The entries of the slots that are not in the store below. -/
theorem mem_onlyL1_entries (h : Wf ty t) {k : κ} {v : υ} :
    (k, v) ∈ (onlyL1 ty t).map (fun i => ((t.slots i).key, (t.slots i).value)) ↔
      ∃ sl, cell ty t k = some sl ∧ sl.inL2 = false ∧ sl.value = v := by
  rw [List.mem_map]
  constructor
  · rintro ⟨i, hi, he⟩
    obtain ⟨rfl, rfl⟩ := Prod.mk.inj he
    exact ⟨_, h.cell_of_valid ((mem_onlyL1 h).1 hi).1, ((mem_onlyL1 h).1 hi).2, rfl⟩
  · rintro ⟨sl, hsl, hin, rfl⟩
    obtain ⟨i, hv, hk, rfl⟩ := h.cell_eq_some.1 hsl
    exact ⟨i, (mem_onlyL1 h).2 ⟨hv, hin⟩, by rw [hk]⟩

omit [DecidableEq κ] [Inhabited κ] [Inhabited υ] in
/-- The keys of the store below, decoded. -/
theorem exists_keys (hty : RoundTrips ty) {raws : List Bytes} (hnodup : raws.Nodup)
    (hkeys : ∀ raw ∈ raws, ∃ k, raw = ty.keyCodec.encode k) : ∃ ks : List κ,
    ks.map ty.keyCodec.encode = raws ∧ ks.Nodup ∧ ∀ k, k ∈ ks ↔ ty.keyCodec.encode k ∈ raws := by
  have hmap : ∃ ks : List κ, ks.map ty.keyCodec.encode = raws := by
    clear hnodup
    induction raws with
    | nil => exact ⟨[], rfl⟩
    | cons raw raws ih =>
      obtain ⟨k, rfl⟩ := hkeys _ List.mem_cons_self
      obtain ⟨ks, rfl⟩ := ih fun raw' h' => hkeys raw' (List.mem_cons_of_mem _ h')
      exact ⟨k :: ks, rfl⟩
  obtain ⟨ks, rfl⟩ := hmap
  refine ⟨ks, rfl, hnodup.of_map, fun k => ⟨fun h => List.mem_map_of_mem h, fun h => ?_⟩⟩
  obtain ⟨k', hk', he⟩ := List.mem_map.1 h
  exact hty.inj he ▸ hk'

omit [DecidableEq κ] [Inhabited κ] [Inhabited υ] in
/-- Merging keeps the keys of the store below, if every entry is shown. -/
theorem merged_keys {raws : List (Bytes × Bytes)} {f : Bytes × Bytes → Option (κ × υ)}
    (h : ∀ e ∈ raws, ∃ k v, e.1 = ty.keyCodec.encode k ∧ f e = some (k, v)) :
    (raws.filterMap f).map (fun kv => ty.keyCodec.encode kv.1) = raws.map Prod.fst := by
  induction raws with
  | nil => rfl
  | cons e raws ih =>
    obtain ⟨k, v, hk, hf⟩ := h e List.mem_cons_self
    rw [List.filterMap_cons, hf, List.map_cons, List.map_cons,
      ih fun e' he' => h e' (List.mem_cons_of_mem _ he'), hk]

/-- Every entry of the store below is shown with the value that was put last. -/
theorem Tracks.mergeEntry_eq (hty : RoundTrips ty) (h : Tracks ty policy asp now puts (cell ty t) m)
    (hwf : Wf ty t) {raw : Bytes × Bytes} (hraw : (m raw.1).map RawRecord.value = some raw.2) :
    ∃ k p, raw.1 = ty.keyCodec.encode k ∧ puts k = some p ∧ mergeEntry ty t raw = some (k, p.value) := by
  obtain ⟨rec, hrec, hv⟩ := Option.map_eq_some_iff.1 hraw
  obtain ⟨k, hk⟩ := h.keys raw.1 (by rw [hrec]; rfl)
  have hp := h.placed k
  rw [hk] at hrec
  rw [mergeEntry, hk, hty.key]
  dsimp only
  cases hfind : find ty t k with
  | some i =>
    have hcell : cell ty t k = some (t.slots i) := cell_of_find hfind
    obtain ⟨p, hput, hval, -⟩ := hp.cached _ hcell
    refine ⟨k, p, rfl, hput, ?_⟩
    dsimp only
    rw [← hval, (hwf.find_eq_some.1 hfind).2]
  | none =>
    cases hput : puts k with
    | none => cases (hp.gone hput).2.symm.trans hrec
    | some p =>
      obtain ⟨ttl, ts, -, hall, -⟩ := hp.kept p hput (cell_eq_none.2 hfind)
      have hval : raw.2 = ty.valueCodec.encode p.value := by rw [← hv, hall rec hrec]
      refine ⟨k, p, rfl, hput, ?_⟩
      dsimp only
      rw [hval, hty.value]

omit [DecidableEq κ] [Inhabited κ] [Inhabited υ] in
/-- In a timeless run every put is in a slot that is not in the store below, or in the store below. -/
theorem Tracks.timeless_isSome (h : Tracks ty policy asp now puts c m) (ht : asp.timeless) (k : κ) :
    (puts k).isSome ↔ (m (ty.keyCodec.encode k)).isSome ∨ ∃ sl, c k = some sl ∧ sl.inL2 = false := by
  have hp := h.placed k
  constructor
  · intro hput
    obtain ⟨p, hput⟩ := Option.isSome_iff_exists.1 hput
    obtain ⟨hputs, hrec, hflag⟩ := hp.timeless ht
    cases hc : c k with
    | some sl =>
      cases hin : sl.inL2 with
      | true => exact .inl (hflag sl hc hin)
      | false => exact .inr ⟨sl, rfl, hin⟩
    | none =>
      refine .inl ?_
      by_contra hno
      have hover := (hp.kept p hput hc).shown.2 fun r hr =>
        absurd (Option.isSome_iff_exists.2 ⟨r, hr⟩) hno
      rw [TieredPut.Over, (hputs p hput).1, (hputs p hput).2] at hover
      exact TieredPut.not_expired_zero hover
  · intro hsome
    cases hput : puts k with
    | some p => rfl
    | none =>
      obtain ⟨hc, hm⟩ := hp.gone hput
      rcases hsome with hsome | ⟨sl, hsl, -⟩
      · rw [hm] at hsome
        cases hsome
      · cases hc.symm.trans hsl

/-- `size` of a timeless run. -/
theorem Kept.wp_size (hty : RoundTrips ty) (hR : R.Lawful policy False accepts now Rep)
    (h : Kept ty policy asp now Rep puts t s) (ht : asp.timeless) :
    R.wp (size ty t) (fun n _ => ∃ ks : List κ, ks.Nodup ∧ (∀ k, k ∈ ks ↔ (puts k).isSome) ∧
      n = ks.length) s := by
  have hU : Upkeep ty R now (Traces ty policy asp now Rep puts) := traces_upkeep hty hR
  refine StoreRel.wp_call fun r s₀ hr => ?_
  obtain ⟨rfl, m, hm, htr⟩ := hU.isValid _ s r s₀ h.traces hr
  refine StoreRel.wp_call fun n s₁ hr => ?_
  obtain ⟨-, raws, hnodup, hmem, rfl⟩ := hR.size hm hr
  obtain ⟨ks, hks, hnodup', hmem'⟩ := exists_keys hty hnodup fun raw hraw => htr.keys raw ((hmem raw).1 hraw)
  obtain ⟨hsolo, hmemsolo⟩ := onlyL1_keys h.wf
  refine ⟨ks ++ (onlyL1 ty t).map fun i => (t.slots i).key, ?_, fun k => ?_, ?_⟩
  · refine hnodup'.append hsolo fun k hk hk' => ?_
    obtain ⟨sl, hsl, hin⟩ := (hmemsolo k).1 hk'
    have hsome := (hmem _).1 ((hmem' k).1 hk)
    rw [(htr.placed k).fresh sl hsl hin] at hsome
    cases hsome
  · rw [List.mem_append, hmem', hmem, hmemsolo, htr.timeless_isSome ht]
  · rw [List.length_append, List.length_map, ← hks, List.length_map]

/-- The iterator of a timeless run. -/
theorem Kept.wp_iterate (hty : RoundTrips ty) (hR : R.Lawful policy False accepts now Rep)
    (h : Kept ty policy asp now Rep puts t s) (ht : asp.timeless) :
    R.wp (iterate ty now t) (fun x _ => (x.1.map Prod.fst).Nodup ∧
      ∀ k v, (k, v) ∈ x.1 ↔ (puts k).map TieredPut.value = some v) s := by
  have hU : Upkeep ty R now (Traces ty policy asp now Rep puts) := traces_upkeep hty hR
  refine StoreRel.wp_call fun r s₀ hr => ?_
  obtain ⟨rfl, hj₀⟩ := hU.isValid _ s r s₀ h.traces hr
  refine StoreRel.wp_seq (wp_pruneExpired hU h.wf hj₀) fun t₁ s₁ ⟨h₁, ⟨m, hm, htr⟩, _, _, _⟩ => ?_
  refine StoreRel.wp_call fun (raws : List (Bytes × Bytes)) s₂ hr => ?_
  obtain ⟨-, hnodup, hmem⟩ := hR.iterate hm hr
  obtain ⟨hsolo, hmemsolo⟩ := onlyL1_keys h₁
  have hshown (raw : Bytes × Bytes) (hraw : raw ∈ raws) : ∃ k p, raw.1 = ty.keyCodec.encode k ∧
      puts k = some p ∧ mergeEntry ty t₁ raw = some (k, p.value) :=
    htr.mergeEntry_eq hty h₁ ((hmem raw.1 raw.2).1 hraw)
  have hmerged := @merged_keys _ _ ty raws (mergeEntry ty t₁) fun raw hraw => by
    obtain ⟨k, p, hk, -, hmerge⟩ := hshown raw hraw
    exact ⟨k, p.value, hk, hmerge⟩
  have hkey (k : κ) (v : υ) (hin : (k, v) ∈ raws.filterMap (mergeEntry ty t₁)) :
      (puts k).map TieredPut.value = some v ∧ (m (ty.keyCodec.encode k)).isSome := by
    obtain ⟨raw, hraw, hmerge⟩ := List.mem_filterMap.1 hin
    obtain ⟨k', p, hk', hput, hmerge'⟩ := hshown raw hraw
    obtain ⟨rfl, rfl⟩ := Prod.mk.inj (Option.some.inj (hmerge.symm.trans hmerge'))
    refine ⟨by rw [hput]; rfl, ?_⟩
    obtain ⟨rec, hrec, -⟩ := Option.map_eq_some_iff.1 ((hmem raw.1 raw.2).1 hraw)
    rw [← hk', hrec]
    rfl
  refine ⟨?_, fun k v => ?_⟩
  · rw [List.map_append, List.map_map]
    refine List.Nodup.append ?_ hsolo fun k hk hk' => ?_
    · have : ((raws.filterMap (mergeEntry ty t₁)).map Prod.fst).map ty.keyCodec.encode
          = raws.map Prod.fst := by
        rw [List.map_map]
        exact hmerged
      exact List.Nodup.of_map ty.keyCodec.encode (this ▸ hnodup)
    · obtain ⟨kv, hkv, rfl⟩ := List.mem_map.1 hk
      obtain ⟨sl, hsl, hin⟩ := (hmemsolo _).1 hk'
      have hsome := (hkey kv.1 kv.2 hkv).2
      rw [(htr.placed kv.1).fresh sl hsl hin] at hsome
      cases hsome
  · rw [List.mem_append, mem_onlyL1_entries h₁]
    constructor
    · rintro (hin | ⟨sl, hsl, -, rfl⟩)
      · exact (hkey k v hin).1
      · obtain ⟨p, hput, hv, -⟩ := (htr.placed k).cached sl hsl
        rw [hput, hv]
        rfl
    · intro hput
      obtain ⟨p, hp, rfl⟩ := Option.map_eq_some_iff.1 hput
      rcases (htr.timeless_isSome ht k).1 (by rw [hp]; rfl) with hsome | ⟨sl, hsl, hin⟩
      · obtain ⟨rec, hrec⟩ := Option.isSome_iff_exists.1 hsome
        have hraw : (ty.keyCodec.encode k, rec.value) ∈ raws := (hmem _ _).2 (by rw [hrec]; rfl)
        obtain ⟨k', p', hk', hput', hmerge⟩ := hshown _ hraw
        obtain rfl := hty.inj hk'
        obtain rfl := Option.some.inj (hp.symm.trans hput')
        exact .inl (List.mem_filterMap.2 ⟨_, hraw, hmerge⟩)
      · obtain ⟨p', hput', hv, -⟩ := (htr.placed k).cached sl hsl
        obtain rfl := Option.some.inj (hp.symm.trans hput')
        exact .inr ⟨sl, hsl, hin, hv⟩

end steps

end Tiered

end MicroStore
