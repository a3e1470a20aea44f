import Mathlib.Algebra.Group.Nat.Defs
import Mathlib.Data.List.Chain

/-!
# `Utility.h`: the clock on Arduino

`::millis()` counts in 32 bits and starts over after 49 days.  `time()` keeps the last count it saw and
the number of times it saw the count fall, both in static variables, and puts the two together.  What
the two hold is then the time itself (`Tracks`), from call to call, as long as no call comes so late
that the count has gone round in between; so every call answers the seconds that have gone by, and the
offset (`time_survives_rollover`).

The function is `inline static`: every translation unit has variables of its own, and a run is one of
calls in the same unit.

## What is here

* `TimeState`, `millis`, `time`, `setTimeOffset` — the variables and the functions of the source.
* `TimeCall`, `TimeCall.run` — a history of calls, each of which takes place at some number of
  milliseconds since the start, with what it answers.
* `TimeCall.Timely` — the condition on a history: the first call comes before the count first goes
  round, each of the others before it goes round once since the one before it, and all within `2 ^ 64`
  milliseconds.
* `TimeState.Tracks` — the invariant: the two variables hold the time of the last call.
* `time_survives_rollover` — the result: every answer is right, and while the offset stays and nothing
  wraps the answers do not go back.
-/

set_option autoImplicit false

namespace MicroStore

/-- The static variables of `time` and of `time_offset`. -/
structure TimeState where
  /-- The count that was seen last. -/
  low32 : UInt32
  /-- How often it has been seen to fall. -/
  high32 : UInt32
  /-- The offset. -/
  timeOffset : UInt32

/-- At startup. -/
def TimeState.startup : TimeState := ⟨0, 0, 0⟩

/-- `set_time_offset`. -/
def setTimeOffset (offset : UInt32) (s : TimeState) : TimeState := { s with timeOffset := offset }

/-- `::millis()`, when that many milliseconds have gone by. -/
def millis (elapsed : Nat) : UInt32 := UInt32.ofNat elapsed

/-- `time`, where `::millis()` answers `newLow32`. -/
def time (newLow32 : UInt32) (s : TimeState) : UInt32 × TimeState :=
  let high32 := if newLow32 < s.low32 then s.high32 + 1 else s.high32
  let low32 := newLow32
  (((high32.toUInt64 <<< 32 ||| low32.toUInt64) / 1000).toUInt32 + s.timeOffset,
    { s with low32 := low32, high32 := high32 })

/-! ## Runs

Time is a natural number of milliseconds here; what `::millis()` shows of it has 32 bits. -/

/-- A call, and for `time` how many milliseconds have gone by. -/
inductive TimeCall
  | setTimeOffset (offset : UInt32)
  | time (elapsed : Nat)

/-- A call of `time`: the milliseconds gone by, the offset it finds and what it answers. -/
structure Reading where
  /-- When the call took place. -/
  elapsed : Nat
  /-- The offset at the time. -/
  offset : UInt32
  /-- What it answered. -/
  answer : UInt32
  deriving DecidableEq

namespace TimeCall

/-- The readings of a run. -/
def run : List TimeCall → TimeState → List Reading
  | [], _ => []
  | .setTimeOffset offset :: calls, s => run calls (MicroStore.setTimeOffset offset s)
  | .time elapsed :: calls, s =>
    ⟨elapsed, s.timeOffset, (MicroStore.time (millis elapsed) s).1⟩ ::
      run calls (MicroStore.time (millis elapsed) s).2

/-- When `time` is called. -/
def times : List TimeCall → List Nat
  | [] => []
  | .setTimeOffset _ :: calls => times calls
  | .time elapsed :: calls => elapsed :: times calls

/-- The count does not go round between two calls. -/
def Follows (earlier later : Nat) : Prop := earlier ≤ later ∧ later < earlier + 2 ^ 32

instance (earlier later : Nat) : Decidable (Follows earlier later) :=
  inferInstanceAs (Decidable (_ ∧ _))

/-- The count does not go round before the first call of `time` nor between two of them, and all of it
fits in 64 bits. -/
structure Timely (calls : List TimeCall) : Prop where
  /-- The first call comes before the count goes round. -/
  first : ∀ t ∈ (times calls).head?, t < 2 ^ 32
  /-- Each call follows the one before it in time. -/
  follows : (times calls).IsChain Follows
  /-- All are within 64 bits. -/
  lt : ∀ t ∈ times calls, t < 2 ^ 64

end TimeCall

/-! ## What the variables hold

One call takes the invariant from the time of the call before to its own. -/

/-- The variables hold the time of the last call. -/
def TimeState.Tracks (s : TimeState) (elapsed : Nat) : Prop :=
  s.high32.toNat * 2 ^ 32 + s.low32.toNat = elapsed

/-- At the start. -/
theorem TimeState.tracks_startup : TimeState.startup.Tracks 0 := rfl

/-- One call. -/
theorem TimeState.Tracks.time {s : TimeState} {t t' : Nat} (h : s.Tracks t)
    (hfollows : TimeCall.Follows t t') (hlt : t' < 2 ^ 64) :
    (MicroStore.time (millis t') s).2.Tracks t' := by
  obtain ⟨hle, hgap⟩ := hfollows
  have hlow := s.low32.toNat_lt
  have hmillis : (millis t').toNat = t' % 2 ^ 32 := UInt32.toNat_ofNat'
  rw [Tracks] at h ⊢
  rw [MicroStore.time]
  dsimp only
  split
  · next hfell =>
    rw [UInt32.lt_iff_toNat_lt, hmillis] at hfell
    have hdiv : t' / 2 ^ 32 = s.high32.toNat + 1 := by omega
    rw [UInt32.toNat_add, UInt32.toNat_one, Nat.mod_eq_of_lt (by omega), ← hdiv, hmillis]
    exact Nat.div_add_mod' t' _
  · next hrose =>
    rw [UInt32.lt_iff_toNat_lt, hmillis] at hrose
    have hdiv : t' / 2 ^ 32 = s.high32.toNat := by omega
    rw [← hdiv, hmillis]
    exact Nat.div_add_mod' t' _

/-- What a call answers, by what the variables hold after it. -/
theorem toNat_time {newLow32 : UInt32} {s : TimeState} {t : Nat}
    (h : (time newLow32 s).2.Tracks t) :
    (time newLow32 s).1.toNat = (t / 1000 + s.timeOffset.toNat) % 2 ^ 32 := by
  obtain ⟨high32, hhigh⟩ : ∃ high32, (time newLow32 s).2.high32 = high32 := ⟨_, rfl⟩
  have hanswer : (time newLow32 s).1
      = ((high32.toUInt64 <<< 32 ||| newLow32.toUInt64) / 1000).toUInt32 + s.timeOffset := by
    rw [← hhigh]
    rfl
  have hwords : (high32.toUInt64 <<< 32 ||| newLow32.toUInt64).toNat = t := by
    have hhigh32 := high32.toNat_lt
    have hshift : (high32.toUInt64 <<< 32).toNat = high32.toNat <<< 32 := by
      rw [UInt64.toNat_shiftLeft, UInt32.toNat_toUInt64]
      refine Nat.mod_eq_of_lt ?_
      rw [Nat.shiftLeft_eq]
      exact (by omega : high32.toNat * 2 ^ 32 < 2 ^ 64)
    rw [UInt64.toNat_or, hshift, UInt32.toNat_toUInt64,
      ← Nat.shiftLeft_add_eq_or_of_lt newLow32.toNat_lt, Nat.shiftLeft_eq]
    rw [TimeState.Tracks, hhigh] at h
    exact h
  rw [hanswer, UInt32.toNat_add, UInt64.toNat_toUInt32, UInt64.toNat_div, hwords, Nat.mod_add_mod]
  rfl

/-! ## What the clock says

The answer is computed from the variables, so it is that of the time they hold. -/

namespace TimeCall

/-- There is a reading for every call of `time`. -/
theorem map_elapsed_run (calls : List TimeCall) (s : TimeState) :
    (run calls s).map Reading.elapsed = times calls := by
  induction calls generalizing s with
  | nil => rfl
  | cons c calls ih =>
    cases c with
    | setTimeOffset offset => exact ih _
    | time elapsed => exact congrArg (elapsed :: ·) (ih _)

/-- All calls of a run, from the second on or from a startup at time zero. -/
theorem answer_of_mem_run {calls : List TimeCall} {s : TimeState} {t : Nat} (hs : s.Tracks t)
    (hchain : (t :: times calls).IsChain Follows) (hlt : ∀ t ∈ times calls, t < 2 ^ 64) :
    ∀ r ∈ run calls s, r.answer.toNat = (r.elapsed / 1000 + r.offset.toNat) % 2 ^ 32 := by
  induction calls generalizing s t with
  | nil => simp [run]
  | cons c calls ih =>
    cases c with
    | setTimeOffset offset => exact ih (s := MicroStore.setTimeOffset offset s) hs hchain hlt
    | time elapsed =>
      obtain ⟨hfollows, hrest⟩ := List.isChain_cons_cons.1 hchain
      have hnext := hs.time hfollows (hlt elapsed List.mem_cons_self)
      intro r hr
      rcases List.mem_cons.1 hr with rfl | hr
      · exact toNat_time hnext
      · exact ih hnext hrest (fun t ht => hlt t (List.mem_cons_of_mem _ ht)) r hr

/-- **The clock survives the rollover.**  Every call answers the seconds that have gone by and the
offset, and while the offset stays as it is and the sum fits, the answers never go back. -/
theorem time_survives_rollover {calls : List TimeCall} (h : Timely calls) :
    (∀ r ∈ run calls .startup,
        r.answer.toNat = (r.elapsed / 1000 + r.offset.toNat) % 2 ^ 32) ∧
      ∀ offset, (∀ r ∈ run calls .startup,
          r.offset = offset ∧ r.elapsed / 1000 + offset.toNat < 2 ^ 32) →
        ((run calls .startup).map Reading.answer).Pairwise (· ≤ ·) := by
  have hchain : (0 :: times calls).IsChain Follows :=
    List.isChain_cons.2 ⟨fun t ht => ⟨Nat.zero_le t, by simpa using h.first t ht⟩, h.follows⟩
  have hanswer := answer_of_mem_run TimeState.tracks_startup hchain h.lt
  refine ⟨hanswer, fun offset hoffset => ?_⟩
  have htimes : (times calls).Pairwise (· ≤ ·) :=
    List.isChain_iff_pairwise.1 (h.follows.imp fun _ _ hf => hf.1)
  rw [← map_elapsed_run calls .startup, List.pairwise_map] at htimes
  rw [List.pairwise_map]
  refine htimes.imp_of_mem fun {r r'} hr hr' hle => ?_
  have hfits {r : Reading} (hr : r ∈ run calls .startup) :
      r.answer.toNat = r.elapsed / 1000 + offset.toNat := by
    rw [hanswer r hr, (hoffset r hr).1, Nat.mod_eq_of_lt (hoffset r hr).2]
  rw [UInt32.le_iff_toNat_le, hfits hr, hfits hr']
  exact Nat.add_le_add_right (Nat.div_le_div_right hle) _

/-- Before the count goes round, after that, and just before it goes round again. -/
def aroundRollover : List TimeCall :=
  [.setTimeOffset 5, .time 4294967290, .time 4294967310, .time 8589934590]

theorem time_survives_a_rollover :
    (∀ r ∈ run aroundRollover .startup,
        r.answer.toNat = (r.elapsed / 1000 + r.offset.toNat) % 2 ^ 32) ∧
      ((run aroundRollover .startup).map Reading.answer).Pairwise (· ≤ ·) := by
  have h : Timely aroundRollover := ⟨by simp [aroundRollover, times], by decide, by decide⟩
  exact ⟨(time_survives_rollover h).1, (time_survives_rollover h).2 5 (by decide +kernel)⟩

end TimeCall

end MicroStore
