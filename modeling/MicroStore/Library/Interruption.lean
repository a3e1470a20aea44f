import MicroStore.Library.Prog
import Mathlib.Logic.Relation

/-!
# Interrupted programs

A run can be cut off before any of its operations: `Cut h ok p s s'` says that `s'` is the state a
run of `p` from `s` has come to when that happens, and that every operation before found a state in
`ok`.  `wp_cut` carries the invariant of a `wp` over to such runs.

A program that repairs what an interruption has left behind is itself interrupted sometimes.
`Attempts` is any number of cut runs in a row, each of one of a family of programs and each started
where the one before was cut, which is always a `safe` place; what one such run preserves is
preserved (`Attempts.preserve`).

The last place to cut a run at is what `Ends` speaks of: a run without operations has none, and so has a
run whose last operation is not one of those that are asked about.

* `Cut`, `wp_cut` — one run that is cut off.
* `Ends`, `ends_call`, `ends_seq` — where a run comes to last, by the structure of the program.
* `Attempts`, `Attempts.preserve` — cut runs in a row, by induction on their number.
-/

set_option autoImplicit false

namespace Prog

variable {Op : Type} {Reply : Op → Type} {α σ : Type}

/-- A run of `p` from `s` that is cut off in the state `s'`. -/
def Cut (h : (op : Op) → σ → Reply op × σ) (ok : σ → Prop) (p : Prog Op Reply α) (s s' : σ) : Prop :=
  ∃ n : Fin (trace h p s).length, s' = ((trace h p s).get n).2 ∧ ∀ y ∈ (trace h p s).take n, ok y.2

section cut

variable {h : (op : Op) → σ → Reply op × σ} {ok : σ → Prop} {p : Prog Op Reply α} {s s' : σ}
  {R : (op : Op) → σ → Reply op → σ → Prop} {I : Op → σ → Prop} {Q : α → σ → Prop}

/-- **Soundness for runs that are cut off.**  Only the operations that have been performed need an
outcome inside `R`. -/
theorem wp_cut (hp : wp R I p Q s) (hcut : Cut h ok p s s')
    (hR : ∀ op s, ok s → R op s (h op s).1 (h op s).2) : ∃ op, I op s' := by
  obtain ⟨⟨n, hn⟩, rfl, hok⟩ := hcut
  induction p generalizing s n with
  | ret a => exact absurd hn (Nat.not_lt_zero n)
  | call op k ih =>
    cases n with
    | zero => exact ⟨op, hp.1⟩
    | succ n =>
      have hs : ok s := hok (op, s) List.mem_cons_self
      exact ih _ (hp.2 _ _ (hR op s hs)) n (Nat.lt_of_succ_lt_succ hn)
        fun y hy => hok y (List.mem_cons_of_mem _ hy)

/-- A run is cut off where it starts, or its start was in `ok`. -/
theorem Cut.start (hcut : Cut h ok p s s') : s' = s ∨ ok s := by
  obtain ⟨⟨n, hn⟩, rfl, hok⟩ := hcut
  cases p with
  | ret a => exact absurd hn (Nat.not_lt_zero n)
  | call op k =>
    cases n with
    | zero => exact .inl rfl
    | succ n => exact .inr (hok (op, s) List.mem_cons_self)

end cut

/-! ## What a run comes across -/

section ends

variable {β : Type} (h : (op : Op) → σ → Reply op × σ) (I : Op → σ → Prop)

/-- The last operation of the run is one of `I`, in a state of `I`. -/
def Ends (p : Prog Op Reply α) (s : σ) : Prop := ∃ x, (trace h p s).getLast? = some x ∧ I x.1 x.2

variable {h I} {p : Prog Op Reply α} {f : α → Prog Op Reply β} {s : σ}
  {R : (op : Op) → σ → Reply op → σ → Prop} {I' : Op → σ → Prop} {Q : α → σ → Prop}

/-- A single operation is the last one. -/
theorem ends_call {op : Op} {k : Reply op → α} (hI : I op s) :
    Ends h I (.call op fun r => .ret (k r)) s :=
  ⟨(op, s), rfl, hI⟩

/-- Sequencing: `p` runs to some `Q`, from which `f` ends in `I`. -/
theorem ends_seq (hp : wp R I' p Q s)
    (hR : ∀ x ∈ trace h (p >>= f) s, R x.1 x.2 (h x.1 x.2).1 (h x.1 x.2).2)
    (hf : ∀ a s', Q a s' → (∀ x ∈ trace h (f a) s', R x.1 x.2 (h x.1 x.2).1 (h x.1 x.2).2) →
      Ends h I (f a) s') : Ends h I (p >>= f) s := by
  rw [trace_bind] at hR
  have hQ := wp_exec (π := id) hp fun x hx => hR x (List.mem_append_left _ hx)
  obtain ⟨x, hx, hI⟩ := hf _ _ hQ fun x hx => hR x (List.mem_append_right _ hx)
  have hx : (trace h (f (exec h p s).1) (exec h p s).2).getLast? = some x := hx
  refine ⟨x, ?_, hI⟩
  rw [trace_bind, List.getLast?_append, hx, Option.some_or]

end ends

/-! ## One interruption after the other -/

section attempts

variable {ι : Type} (h : (op : Op) → σ → Reply op × σ) (ok safe : σ → Prop)
  (p : ι → Prog Op Reply α)

/-- Runs that are cut off in safe places, one after the other. -/
def Attempts : σ → σ → Prop :=
  Relation.ReflTransGen fun s s' => (∃ i, Cut h ok (p i) s s') ∧ safe s'

variable {h ok safe p} {J : σ → Prop} {s s' : σ}

/-- What a single run preserves, wherever it is cut. -/
theorem Attempts.preserve (ha : Attempts h ok safe p s s')
    (hJ : ∀ i s s', J s → Cut h ok (p i) s s' → safe s' → J s') (hs : J s) : J s' := by
  induction ha with
  | refl => exact hs
  | tail _ hstep ih =>
    obtain ⟨⟨i, hcut⟩, hsafe⟩ := hstep
    exact hJ i _ _ ih hcut hsafe

end attempts

end Prog
