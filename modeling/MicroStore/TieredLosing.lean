import MicroStore.Library.Simulation
import MicroStore.TieredRefining

/-!
# What is lost with the slots

When the power goes, the slots are gone, and the store below is what is left.  In a run without TTLs it
then shows every key as the map had it at some time since the last `sync` that succeeded, but not every
key as of the same time (`tiered_rolls_back`).

## What is here

* `StoreCall.Lawful` — the store below as a map itself: the calls of the interface on a map of raw
  records.  `StoreRel.Lawful.simulated` says that every lawful store simulates it, so the rest is about
  that map alone.
* `Tiered.Saved` — the store below holds a key as it was put last.
* `Tiered.Rolls` — how the store below may change: at each key it stays, or takes on what was put last.
* `wp_rolls` — every operation only rolls.
* `TieredState.Holds` — the invariant of a run, and `Holds.run`.
* `TieredState.Synced` — the operations so far end with a `sync` that returned true.
* `tiered_rolls_back` — the result, with a sample run in which one key is of a later time than another.
-/

set_option autoImplicit false

namespace MicroStore

/-! ## The store below as a map

`Lawful` leaves it open what the state of the store below is.  A simulation replaces it by the map it
represents. -/

/-- What a call on a store that forgets only what has expired answers, and makes of what it holds. -/
def StoreCall.Lawful (policy : UInt32) (accepts : Bytes → Bytes → Prop) (now : UInt32) :
    StoreRel Holdings
  | .isValid => fun m (r : Bool) m' => r = true ∧ m' = m
  | .put k v ttl ts _ => fun m (r : Bool) m' => (r = true ↔ accepts k v) ∧ Holdings.Shrinks policy False
    now (if r = true then Function.update m k (some ⟨v, ttl, ts⟩) else m) m'
  | .get k => fun m (r : Option Bytes) m' =>
    r = (m.shown policy now k).map RawRecord.value ∧ m.Shrinks policy False now m'
  | .exists k => fun m (r : Bool) m' =>
    r = (m.shown policy now k).isSome ∧ m.Shrinks policy False now m' ∧ (r = false → m' k = none)
  | .remove k => fun m (_ : Bool) m' => Holdings.Shrinks policy False now (Function.update m k none) m'
  | .size => fun m (r : Nat) m' =>
    m' = m ∧ ∃ ks : List Bytes, ks.Nodup ∧ (∀ k, k ∈ ks ↔ (m k).isSome) ∧ r = ks.length
  | .iterate => fun m (r : List (Bytes × Bytes)) m' =>
    m' = m ∧ (r.map Prod.fst).Nodup ∧ ∀ k v, (k, v) ∈ r ↔ (m k).map RawRecord.value = some v
  | .clear => fun _ _ m' => m' = fun _ => none

section lawful

variable {σ : Type} {R : StoreRel σ} {policy now : UInt32} {accepts : Bytes → Bytes → Prop}
  {Rep : σ → Holdings → Prop}

/-- What a lawful store holds is lawful, too. -/
theorem StoreCall.lawful (policy : UInt32) (accepts : Bytes → Bytes → Prop) (now : UInt32) :
    (StoreCall.Lawful policy accepts now).Lawful policy False accepts now fun s m => m = s where
  isValid := by
    rintro s m r s' rfl ⟨hr, rfl⟩
    exact ⟨hr, rfl⟩
  put := by
    rintro s m k v ttl ts priority r s' rfl ⟨hr, hs⟩
    exact ⟨hr, _, rfl, hs⟩
  get := by
    rintro s m k r s' rfl ⟨hr, hs⟩
    exact ⟨hr, _, rfl, hs⟩
  «exists» := by
    rintro s m k r s' rfl ⟨hr, hs, hno⟩
    exact ⟨hr, _, rfl, hs, hno⟩
  remove := by
    rintro s m k r s' rfl hs
    exact ⟨_, rfl, hs⟩
  size := by
    rintro s m r s' rfl ⟨rfl, hr⟩
    exact ⟨rfl, hr⟩
  iterate := by
    rintro s m r s' rfl ⟨rfl, hr⟩
    exact ⟨rfl, hr⟩
  clear := by
    rintro s m r s' rfl rfl
    rfl

/-- A lawful store is simulated by what it holds. -/
theorem StoreRel.Lawful.simulated (h : R.Lawful policy False accepts now Rep) (c : StoreCall) (s : σ)
    (m : Holdings) (r : c.Reply) (s' : σ) (hm : Rep s m) (hr : R c s r s') :
    ∃ m', Rep s' m' ∧ StoreCall.Lawful policy accepts now c m r m' := by
  cases c with
  | isValid =>
    obtain ⟨hr, hm⟩ := h.isValid hm hr
    exact ⟨m, hm, hr, rfl⟩
  | put =>
    obtain ⟨hr, m', hm', hs⟩ := h.put hm hr
    exact ⟨m', hm', hr, hs⟩
  | get =>
    obtain ⟨hr, m', hm', hs⟩ := h.get hm hr
    exact ⟨m', hm', hr, hs⟩
  | «exists» =>
    obtain ⟨hr, m', hm', hs⟩ := h.exists hm hr
    exact ⟨m', hm', hr, hs⟩
  | remove =>
    obtain ⟨m', hm', hs⟩ := h.remove hm hr
    exact ⟨m', hm', hs⟩
  | size =>
    obtain ⟨hm, hr⟩ := h.size hm hr
    exact ⟨m, hm, rfl, hr⟩
  | iterate =>
    obtain ⟨hm, hr⟩ := h.iterate hm hr
    exact ⟨m, hm, rfl, hr⟩
  | clear => exact ⟨_, h.clear hm hr, rfl⟩

/-- Where nothing has expired nothing is forgotten. -/
theorem Holdings.Shrinks.eq {m m' : Holdings} (h : m.Shrinks policy False now m')
    (hlive : ∀ k r, m k = some r → ¬r.Over policy now) : m' = m := by
  funext k
  cases hk : m k with
  | none => exact h.none hk
  | some r => exact h.keeps not_false k r hk (hlive k r hk)

end lawful

/-! ## One operation

A slot that has changed is flushed sooner or later, in no particular order, so a key of the store
below moves on to the last put of it or stays. -/

namespace Tiered

section rolls

variable {κ υ : Type} [DecidableEq κ] [Inhabited κ] [Inhabited υ] {ty : Typed κ υ} {now : UInt32}
  {accepts : Bytes → Bytes → Prop} {puts puts' : κ → Option (TieredPut υ)}
  {c : κ → Option (Slot κ υ)} {m₀ m m' : Holdings} {t : Tiered κ υ}

/-- What is held of a key is the put, if there is one. -/
def Saved (ty : Typed κ υ) (puts : κ → Option (TieredPut υ)) (m : Holdings) (k : κ) : Prop :=
  (m (ty.keyCodec.encode k)).map RawRecord.value = (puts k).map fun p => ty.valueCodec.encode p.value

/-- What is held of a key has not changed, or is what was put. -/
def Rolls (ty : Typed κ υ) (m₀ : Holdings) (puts : κ → Option (TieredPut υ)) (m : Holdings) : Prop :=
  ∀ k, (m (ty.keyCodec.encode k)).map RawRecord.value
    = (m₀ (ty.keyCodec.encode k)).map RawRecord.value ∨ Saved ty puts m k

omit [DecidableEq κ] [Inhabited κ] [Inhabited υ] in
/-- In a timeless run nothing that is held has expired. -/
theorem Tracks.not_over (h : Tracks ty 0 timelessly now puts c m) {raw : Bytes} {r : RawRecord}
    (hr : m raw = some r) : ¬r.Over 0 now := by
  obtain ⟨k, rfl⟩ := h.keys raw (by rw [hr]; rfl)
  rw [RawRecord.Over, (((h.placed k).timeless trivial).2.1 r hr).1]
  exact TieredPut.not_expired_zero

omit [DecidableEq κ] [Inhabited κ] [Inhabited υ] in
/-- Where nothing expires the store below forgets nothing. -/
theorem Tracks.shrinks_eq (h : Tracks ty 0 timelessly now puts c m) (hs : m.Shrinks 0 False now m') :
    m' = m :=
  hs.eq fun _ _ hr => h.not_over hr

omit [DecidableEq κ] [Inhabited κ] [Inhabited υ] in
/-- In a timeless run no slot has expired. -/
theorem Tracks.not_isExpired (h : Tracks ty 0 timelessly now puts c m) {k : κ} {sl : Slot κ υ}
    (hsl : c k = some sl) : sl.isExpired now = false := by
  have hp := h.placed k
  rw [hsl] at hp
  rw [← Bool.not_eq_true]
  intro hexp
  obtain ⟨p, hput, -⟩ := hp.cached sl rfl
  have hover := hp.over_of_isExpired hexp p hput
  rw [TieredPut.Over, ((hp.timeless trivial).1 p hput).1] at hover
  exact TieredPut.not_expired_zero hover

/-- Nothing is kept track of but the puts and what has been saved since. -/
def Rolling (ty : Typed κ υ) (now : UInt32) (puts : κ → Option (TieredPut υ)) (m₀ : Holdings)
    (c : κ → Option (Slot κ υ)) (m : Holdings) : Prop :=
  Tracks ty 0 timelessly now puts c m ∧ Rolls ty m₀ puts m

omit [Inhabited κ] [Inhabited υ] in
/-- A flush saves what was put last. -/
theorem Rolls.flush (hty : RoundTrips ty) (h : Rolls ty m₀ puts m) {k : κ} {p : TieredPut υ}
    (hp : puts k = some p) {v : Bytes} (hv : v = ty.valueCodec.encode p.value) {ttl ts : UInt32} :
    Rolls ty m₀ puts (Function.update m (ty.keyCodec.encode k) (some ⟨v, ttl, ts⟩)) := by
  intro k'
  by_cases hk : k' = k
  · refine .inr ?_
    rw [Saved, hk, Function.update_self, hp, Option.map_some, Option.map_some, hv]
  · have hne : ty.keyCodec.encode k' ≠ ty.keyCodec.encode k := fun he => hk (hty.inj he)
    rw [Saved, Function.update_of_ne hne]
    exact h k'

omit [Inhabited κ] [Inhabited υ] in
/-- What the operations do on the way rolls. -/
theorem rolling_upkeep (hty : RoundTrips ty) :
    Upkeep ty (StoreCall.Lawful 0 accepts now) now (Rolling ty now puts m₀) := by
  have hU : Upkeep ty (StoreCall.Lawful 0 accepts now) now
      (Traces ty 0 timelessly now (fun s m => m = s) puts) := traces_upkeep hty (StoreCall.lawful ..)
  have hpure {c : κ → Option (Slot κ υ)} {m : Holdings}
      (h : Traces ty 0 timelessly now (fun s m => m = s) puts c m) :
      Tracks ty 0 timelessly now puts c m := by
    obtain ⟨_, rfl, h⟩ := h
    exact h
  refine ⟨fun c m r m' h hr => ?_, fun c m k r m' h hr => ?_, fun c m k r m' h hr => ?_,
    fun c m k sl h hsl hexp => ?_, fun c m k sl r m' h hsl hkey hexp hd hr => ?_,
    fun c m k sl h hsl hexp hd => ?_⟩
  · obtain ⟨hr, rfl⟩ := hr
    exact ⟨hr, h⟩
  · obtain rfl := h.1.shrinks_eq hr.2.1
    exact h
  · obtain rfl := h.1.shrinks_eq hr.2
    exact h
  · cases (h.1.not_isExpired hsl).symm.trans hexp
  · have htr := hpure (hU.flush c m k sl r m' ⟨m, rfl, h.1⟩ hsl hkey hexp hd hr)
    refine ⟨htr, ?_⟩
    have hp := h.1.placed k
    rw [hsl] at hp
    obtain ⟨p, hput, hv, -⟩ := hp.cached sl rfl
    have hs := hr.2
    cases r with
    | true =>
      rw [if_pos rfl, hkey] at hs
      rw [(h.1.move hty k (hp.flush hexp hd)).shrinks_eq hs]
      exact h.2.flush hty hput (by rw [hv])
    | false =>
      obtain rfl := h.1.shrinks_eq hs
      exact h.2
  · exact ⟨hpure (hU.drop c m k sl ⟨m, rfl, h.1⟩ hsl hexp hd), h.2⟩

/-- **One operation** leaves of every key what was held, or the last put before or after it. -/
theorem wp_rolls (hty : RoundTrips ty) (hwf : Wf ty t)
    (h : Tracks ty 0 timelessly now puts (cell ty t) m) {op : TieredOp κ υ} :
    (StoreCall.Lawful 0 accepts now).wp (perform ty now t op) (fun x m' => ∀ k,
      (m' (ty.keyCodec.encode k)).map RawRecord.value = (m (ty.keyCodec.encode k)).map RawRecord.value ∨
        Saved ty puts m' k ∨ Saved ty (op.next puts now x.1) m' k) m := by
  have hU : Upkeep ty (StoreCall.Lawful 0 accepts now) now (Rolling ty now puts m) := rolling_upkeep hty
  have hj : Rolling ty now puts m (cell ty t) m := ⟨h, fun _ => .inl rfl⟩
  have hkeep {c : κ → Option (Slot κ υ)} {m' : Holdings} (puts' : κ → Option (TieredPut υ))
      (hj : Rolling ty now puts m c m') (k : κ) : (m' (ty.keyCodec.encode k)).map RawRecord.value
        = (m (ty.keyCodec.encode k)).map RawRecord.value ∨ Saved ty puts m' k ∨ Saved ty puts' m' k :=
    (hj.2 k).imp_right .inl
  cases op with
  | put k v ttl priority =>
    exact wp_put hU hwf hj (fun c m' sl t' hj _ _ _ => hkeep _ hj)
      (fun c m₁ inL2 m' t' _ _ _ hj _ _ => hkeep _ hj) fun m' hj _ _ _ => hkeep _ hj
  | get k =>
    refine StoreRel.wp_seq (Q := fun _ m' => ∃ c, Rolling ty now puts m c m')
      (wp_get hU hwf hj (fun m' sl t' hj _ _ _ => ⟨_, hj⟩) (fun m' sl t' hj _ _ _ => ⟨_, hj⟩)
        (fun m₁ m' _ hj _ _ => ⟨_, hj⟩) (fun m₁ raw m' _ hj _ _ _ => ⟨_, hj⟩)
        fun m₁ raw m₂ v _ _ _ _ c t' m' hj _ _ _ => ⟨_, hj⟩) fun x m' hx => ?_
    obtain ⟨c, hj⟩ := hx
    exact hkeep _ hj
  | «exists» k =>
    exact wp_exists hU hwf hj (fun m' sl t' hj _ _ _ => hkeep _ hj) (fun m' sl hj _ _ => hkeep _ hj)
      fun m₁ r m' _ hj _ _ => hkeep _ hj
  | remove k =>
    have hgone {c : κ → Option (Slot κ υ)} {m₁ m' : Holdings} {r : Bool}
        (hj : Rolling ty now puts m c m₁)
        (hr : StoreCall.Lawful 0 accepts now (.remove (ty.keyCodec.encode k)) m₁ r m') (k' : κ) :
        (m' (ty.keyCodec.encode k')).map RawRecord.value
          = (m (ty.keyCodec.encode k')).map RawRecord.value ∨ Saved ty puts m' k' ∨
            Saved ty (Function.update puts k none) m' k' := by
      obtain rfl : m' = Function.update m₁ (ty.keyCodec.encode k) none := by
        refine hr.eq fun raw rec hrec => Tracks.not_over hj.1 (show m₁ raw = some rec from ?_)
        by_cases he : raw = ty.keyCodec.encode k
        · rw [he, Function.update_self] at hrec
          cases hrec
        · rwa [Function.update_of_ne he] at hrec
      by_cases hk : k' = k
      · refine .inr (.inr ?_)
        rw [Saved, hk, Function.update_self, Function.update_self]
        rfl
      · have hne : ty.keyCodec.encode k' ≠ ty.keyCodec.encode k := fun he => hk (hty.inj he)
        have hold := hkeep puts hj k'
        rw [Saved] at hold ⊢
        rw [Function.update_of_ne hne]
        exact hold.imp_right fun h => .inl (h.elim id id)
    exact wp_remove hU hwf hj (fun m' sl t' hj _ _ _ _ => hkeep _ hj)
      (fun m₁ r m' sl t' hj _ _ _ _ hr => hgone hj hr) (fun m₁ m' _ hj _ _ => hkeep _ hj)
      fun m₁ r m' hj _ hr => hgone hj hr
  | size =>
    refine StoreRel.wp_call fun r m₁ hr => ?_
    obtain ⟨rfl, hj₁⟩ := hU.isValid _ m r m₁ hj hr
    refine StoreRel.wp_call fun n m₂ hr => ?_
    obtain rfl := hr.1
    exact hkeep _ hj₁
  | iterate =>
    refine StoreRel.wp_seq (Q := fun _ m' => ∃ c, Rolling ty now puts m c m') ?_ fun x m' hx => ?_
    · refine StoreRel.wp_call fun r m₁ hr => ?_
      obtain ⟨rfl, hj₁⟩ := hU.isValid _ m r m₁ hj hr
      refine StoreRel.wp_seq (wp_pruneExpired hU hwf hj₁) fun t₂ m₂ h₂ => ?_
      refine StoreRel.wp_call fun raws m₃ hr => ?_
      obtain rfl := hr.1
      exact ⟨_, h₂.2.1⟩
    · obtain ⟨c, hj⟩ := hx
      exact hkeep _ hj
  | sync =>
    refine StoreRel.wp_call fun r m₁ hr => ?_
    obtain ⟨rfl, hj₁⟩ := hU.isValid _ m r m₁ hj hr
    refine StoreRel.wp_seq (wp_pruneExpired hU hwf hj₁) fun t₂ m₂ h₂ => ?_
    refine Prog.wp_mono (wp_syncLoop hU (fun c m₃ k sl m₄ hj₃ hsl _ _ hin hr => ?_) h₂.1 h₂.2.1
      h₂.2.2.1) fun x m' hx => hkeep _ hx.2.1
    -- the store below still has what a changed slot replaces
    have hbelow := ((hj₃.1.placed k).timeless trivial).2.2 sl hsl hin
    obtain ⟨rec, hrec⟩ := Option.isSome_iff_exists.1 hbelow
    have hshown := hr.1
    rw [Holdings.shown_eq_some.2 ⟨hrec, hj₃.1.not_over hrec⟩] at hshown
    cases hshown
  | clear =>
    refine StoreRel.wp_call fun r m₁ hr => ?_
    obtain ⟨rfl, hj₁⟩ := hU.isValid _ m r m₁ hj hr
    refine StoreRel.wp_call fun u m₂ hr => ?_
    obtain rfl := hr
    exact fun k => .inr (.inr rfl)

variable {σ : Type} {R : StoreRel σ} {Rep : σ → Holdings → Prop} {s : σ}

/-- One operation without a TTL keeps track of the puts, and a `sync` that succeeds leaves no changed
slot. -/
theorem Kept.wp_perform (hty : RoundTrips ty) (hR : R.Lawful 0 False accepts now Rep)
    (h : Kept ty 0 timelessly now Rep puts t s) {op : TieredOp κ υ} (httl : op.NoTtl) :
    R.wp (perform ty now t op) (fun y s' => Kept ty 0 timelessly now Rep (op.next puts now y.1) y.2 s' ∧
      (op = .sync → y.1 = true → ∀ i, (y.2.slots i).valid = true → (y.2.slots i).dirty = false)) s := by
  cases op with
  | put k v ttl priority =>
    refine Prog.wp_mono (h.wp_put hty hR not_false (.inl httl) fun _ => ⟨httl, rfl⟩) fun y s' hy => ?_
    exact ⟨hy.1, nofun⟩
  | get k =>
    refine StoreRel.wp_seq (h.wp_get hty hR) fun y s' hy => ?_
    exact ⟨hy.1 fun hx => hx.elim, nofun⟩
  | «exists» k => exact Prog.wp_mono (h.wp_exists hty hR) fun y s' hy => ⟨hy.1, nofun⟩
  | remove k => exact Prog.wp_mono (h.wp_remove hty hR) fun y s' hy => ⟨hy, nofun⟩
  | size => exact StoreRel.wp_seq (h.size_kept hty hR) fun y s' hy => ⟨hy, nofun⟩
  | iterate => exact StoreRel.wp_seq (h.iterate_kept hty hR) fun y s' hy => ⟨hy, nofun⟩
  | sync =>
    refine Prog.wp_mono (h.wp_sync hty hR not_false (.inl trivial)) fun y s' hy => ?_
    exact ⟨hy.1, fun _ => hy.2⟩
  | clear => exact StoreRel.wp_seq (h.wp_clear hty hR) fun y s' hy => ⟨hy, nofun⟩

end rolls

end Tiered

/-! ## Runs

The invariant holds at any time, since time plays no part without TTLs. -/

namespace TieredState

variable {κ υ σ ε : Type} [DecidableEq κ] [Inhabited κ] [Inhabited υ] {B : Backing ε σ} {ty : Typed κ υ}
  {accepts : Bytes → Bytes → Prop} {Rep : σ → Holdings → Prop} {x : TieredState κ υ σ} {m : Holdings}
  {e : ε}

/-- Between two operations without TTLs: the store below holds `m`, and the puts are kept track of. -/
structure Holds (ty : Typed κ υ) (Rep : σ → Holdings → Prop) (x : TieredState κ υ σ) (m : Holdings) :
    Prop where
  /-- The store below represents a map. -/
  rep : Rep x.store m
  /-- The slots are well formed. -/
  wf : Tiered.Wf ty x.tier
  /-- Together they keep track of the puts. -/
  tracks : ∀ now, Tiered.Tracks ty 0 timelessly now x.puts (Tiered.cell ty x.tier) m

/-- It is the invariant of runs without TTLs. -/
theorem Holds.kept (h : x.Holds ty Rep m) (now : UInt32) : x.Kept ty 0 timelessly now Rep :=
  ⟨h.wf, m, h.rep, h.tracks now⟩

/-- One operation without a TTL. -/
theorem Holds.step (hty : Tiered.RoundTrips ty) (hB : (B.rel e).Lawful 0 False accepts (B.time e) Rep)
    (h : x.Holds ty Rep m) {op : TieredOp κ υ} (httl : op.NoTtl) (hfine : x.Fine B ty e op) :
    ∃ m', (x.step B ty e op).Holds ty Rep m' ∧
      (∀ k, (m' (ty.keyCodec.encode k)).map RawRecord.value
          = (m (ty.keyCodec.encode k)).map RawRecord.value ∨
        Tiered.Saved ty x.puts m' k ∨ Tiered.Saved ty (x.step B ty e op).puts m' k) ∧
      (op = .sync → (B.exec e (Tiered.perform ty (B.time e) x.tier op) x.store).1.1 = true →
        ∀ k, Tiered.Saved ty (x.step B ty e op).puts m' k) := by
  have hkept : Tiered.Kept ty 0 timelessly (B.time e) (fun s m => m = s) x.puts x.tier m :=
    ⟨h.wf, m, rfl, h.tracks _⟩
  have hboth := Prog.wp_and (hkept.wp_perform hty (StoreCall.lawful 0 accepts _) httl)
    (Tiered.wp_rolls hty h.wf (h.tracks (B.time e)))
  obtain ⟨m', hm', ⟨⟨hwf, _, rfl, htr⟩, hclean⟩, hrolls⟩ :=
    Backing.exec_of_wp (Prog.wp_simulates hB.simulated h.rep hboth) hfine
  refine ⟨_, ⟨hm', hwf, fun now => ?_⟩, hrolls, fun hop hok k => ?_⟩
  · exact ⟨fun k => (htr.placed k).later not_false (.inr trivial), htr.keys⟩
  · refine htr.holdings_of_clean trivial (fun k sl hsl => ?_) k
    obtain ⟨i, hv, -, rfl⟩ := hwf.cell_eq_some.1 hsl
    exact hclean hop hok i hv

/-- After a run the store below shows every key as of some time during the run. -/
theorem Holds.run (hty : Tiered.RoundTrips ty)
    (hB : ∀ e, (B.rel e).Lawful 0 False accepts (B.time e) Rep) (h : x.Holds ty Rep m)
    (hsaved : ∀ k, Tiered.Saved ty x.puts m k) {ops : List (ε × TieredOp κ υ)}
    (httl : ∀ op ∈ ops, op.2.NoTtl) (hfine : All B ty (fun x e op => x.Fine B ty e op) ops x) :
    ∃ m', (x.run B ty ops).Holds ty Rep m' ∧
      ∀ k, ∃ done, done <+: ops ∧ Tiered.Saved ty (x.run B ty done).puts m' k := by
  induction ops using List.reverseRecOn with
  | nil => exact ⟨m, h, fun k => ⟨[], List.prefix_rfl, hsaved k⟩⟩
  | append_singleton ops op ih =>
    obtain ⟨hops, hop, -⟩ := (all_append B ty).1 hfine
    obtain ⟨m₁, h₁, hpast⟩ := ih (fun op hmem => httl op (List.mem_append_left _ hmem)) hops
    obtain ⟨m', h', hrolls, -⟩ := h₁.step hty (hB op.1) (httl op List.mem_concat_self) hop
    have hrun : x.run B ty (ops ++ [op]) = (x.run B ty ops).step B ty op.1 op.2 := List.foldl_concat ..
    rw [hrun]
    refine ⟨m', h', fun k => ?_⟩
    rcases hrolls k with hsame | hlast | hnext
    · obtain ⟨done, hdone, hk⟩ := hpast k
      exact ⟨done, hdone.trans (List.prefix_append ..), hsame.trans hk⟩
    · exact ⟨ops, List.prefix_append .., hlast⟩
    · exact ⟨ops ++ [op], List.prefix_rfl, hrun ▸ hnext⟩

/-- Its last operation was a `sync` that succeeded. -/
def Synced (B : Backing ε σ) (ty : Typed κ υ) (x : TieredState κ υ σ) (ops : List (ε × TieredOp κ υ)) :
    Prop :=
  ∃ earlier e, ops = earlier ++ [(e, .sync)] ∧
    let y := x.run B ty earlier
    (B.exec e (Tiered.sync ty (B.time e) y.tier) y.store).1.1 = true

/-- A new tiered store over one that holds a value finds it. -/
theorem wp_get_new (hty : Tiered.RoundTrips ty)
    (hR : (B.rel e).Lawful 0 False accepts (B.time e) Rep) {s : σ} (hm : Rep s m) {k : κ} {o : Option υ}
    (ho : (m.shown 0 (B.time e) (ty.keyCodec.encode k)).map RawRecord.value
      = o.map ty.valueCodec.encode) :
    (B.rel e).wp (Tiered.get ty (B.time e) Tiered.new k) (fun x _ => x.1 = o) s := by
  refine StoreRel.wp_call fun r s₁ hr => ?_
  obtain ⟨rfl, hm₁⟩ := hR.isValid hm hr
  refine StoreRel.wp_call fun (raw : Option Bytes) s₂ hr => ?_
  obtain ⟨hraw, -⟩ := hR.get hm₁ hr
  rw [ho] at hraw
  cases o with
  | none =>
    obtain rfl := hraw
    exact rfl
  | some v =>
    obtain rfl := hraw
    dsimp only [Option.map_some]
    rw [hty.value]
    refine StoreRel.wp_seq
      (Prog.wp_of_always (fun _ _ => trivial) (Prog.always_of_forall _ fun _ => trivial)) ?_
    rintro ⟨_ | i, t⟩ s' -
    · exact rfl
    · exact rfl

end TieredState

/-- **A tiered store that loses its slots** shows every key as the map had it after some of the
operations since the last `sync` that succeeded, or since the start: over the same store below a new one
finds what was put last, but for the keys of changed slots, each of which has gone back on its own. -/
theorem tiered_rolls_back {κ υ σ ε : Type} [DecidableEq κ] [Inhabited κ] [Inhabited υ]
    (ty : Typed κ υ) (hty : Tiered.RoundTrips ty) (hsize : 0 < ty.cacheSize.toNat)
    (B : Backing ε σ) (accepts : Bytes → Bytes → Prop) (Rep : σ → Holdings → Prop)
    (hB : ∀ e, (B.rel e).Lawful 0 False accepts (B.time e) Rep)
    (haccepts : ∀ k v, accepts (ty.keyCodec.encode k) (ty.valueCodec.encode v)) (s : σ)
    (hs : Rep s fun _ => none) (before after : List (ε × TieredOp κ υ))
    (hsync : before = [] ∨ (TieredState.start s).Synced B ty before)
    (httl : ∀ op ∈ before ++ after, op.2.NoTtl)
    (hfine : TieredState.All B ty (fun x e op => x.Fine B ty e op) (before ++ after) (.start s)) :
    let left := ((TieredState.start s).run B ty (before ++ after)).store
    ∀ k, ∃ done, done <+: after ∧ ∀ e, B.Fine e (Tiered.get ty (B.time e) Tiered.new k) left →
      (B.exec e (Tiered.get ty (B.time e) Tiered.new k) left).1.1
        = TieredOp.mapAfter (before ++ done) k := by
  intro left k
  have hbefore (op : ε × TieredOp κ υ) (hmem : op ∈ before) := httl op (List.mem_append_left _ hmem)
  have hafter (op : ε × TieredOp κ υ) (hmem : op ∈ after) := httl op (List.mem_append_right _ hmem)
  obtain ⟨hfine₁, hfine₂⟩ := (TieredState.all_append B ty).1 hfine
  have h₀ : (TieredState.start s : TieredState κ υ σ).Holds ty Rep fun _ => none :=
    ⟨hs, Tiered.wf_new, fun _ => ⟨fun _ => .removed, nofun⟩⟩
  -- at the beginning, and after a `sync`, the store below has all of it
  obtain ⟨m₁, h₁, hsaved⟩ : ∃ m₁, ((TieredState.start s).run B ty before).Holds ty Rep m₁ ∧
      ∀ k, Tiered.Saved ty ((TieredState.start s).run B ty before).puts m₁ k := by
    rcases hsync with rfl | ⟨earlier, e, rfl, hok⟩
    · exact ⟨_, h₀, fun _ => rfl⟩
    · obtain ⟨hfine₀, hlast, -⟩ := (TieredState.all_append B ty).1 hfine₁
      obtain ⟨m₀, h, -⟩ := h₀.run hty hB (fun _ => rfl)
        (fun op hmem => hbefore op (List.mem_append_left _ hmem)) hfine₀
      obtain ⟨m₁, h₁, -, hsaved⟩ := h.step hty (hB e) (hbefore _ List.mem_concat_self) hlast
      have hrun : (TieredState.start s).run B ty (earlier ++ [(e, .sync)])
          = ((TieredState.start s).run B ty earlier).step B ty e .sync := List.foldl_concat ..
      rw [hrun]
      exact ⟨m₁, h₁, hsaved rfl hok⟩
  obtain ⟨m, h, hpast⟩ := h₁.run hty hB hsaved hafter hfine₂
  have happend (ops : List (ε × TieredOp κ υ)) : (TieredState.start s).run B ty (before ++ ops)
      = ((TieredState.start s).run B ty before).run B ty ops := List.foldl_append
  have hleft : Rep left m := by
    change Rep ((TieredState.start s).run B ty (before ++ after)).store m
    rw [happend]
    exact h.rep
  obtain ⟨done, ⟨rest, rfl⟩, hk⟩ := hpast k
  obtain ⟨now, -, hmap⟩ := (h₀.kept 0).run_map hty hsize haccepts hB
    (fun op hmem => (List.mem_append.1 hmem).elim (hbefore op) fun hmem => hafter op
      (List.mem_append_left _ hmem))
    ((TieredState.all_append B ty).2 ⟨hfine₁, ((TieredState.all_append B ty).1 hfine₂).1⟩)
  have hval := congrFun hmap k
  rw [happend] at hval
  refine ⟨done, List.prefix_append .., fun e hfe => ?_⟩
  refine Backing.exec_of_wp (TieredState.wp_get_new hty (hB e) hleft ?_) hfe
  rw [(h.tracks (B.time e)).shown_timeless trivial, hk, TieredOp.mapAfter]
  change _ = (List.foldl _ (fun k => ((TieredState.start s).puts k).map TieredPut.value) _ k).map _
  rw [← hval, Option.map_map]
  rfl

/-- The second key has been evicted and is kept, the first has gone back to what the `sync` saved. -/
theorem tiered_rolls_back_sample :
    let before : List (Moment × TieredOp UInt8 UInt8) := [(.at 0, .put 1 10 0 0), (.at 1, .sync)]
    let after : List (Moment × TieredOp UInt8 UInt8) :=
      [(.at 2, .put 2 20 0 0), (.at 3, .put 1 11 0 0)]
    let left := ((TieredState.start sampleOpened).run (fileBacking sampleSetup) byteTyped
      (before ++ after)).store
    ∀ k, ∃ done, done <+: after ∧ ∀ e, (fileBacking sampleSetup).Fine e
        (Tiered.get byteTyped e.clock.time Tiered.new k) left →
      ((fileBacking sampleSetup).exec e (Tiered.get byteTyped e.clock.time Tiered.new k) left).1.1
        = TieredOp.mapAfter (before ++ done) k :=
  tiered_rolls_back byteTyped byteTyped_roundTrips (by decide) (fileBacking sampleSetup) _ _
    (fileBacking_keeps (by decide) rfl)
    (fun _ _ => ⟨show 1 ≤ maxKeyLen by decide, show 1 ≤ maxValueLen by decide⟩) sampleOpened
    sampleSetup_starts.fileHolds _ _
    (.inr ⟨[(.at 0, .put 1 10 0 0)], .at 1, rfl, by decide +kernel⟩) (by decide) (by decide +kernel)

end MicroStore
