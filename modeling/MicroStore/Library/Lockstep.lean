import MicroStore.Library.Prog

/-!
# Two programs in lockstep

`Lockstep R p q` says that `p` and `q` perform the same operations whatever these answer, and return
results related by `R`.  Two such programs leave every state the same (`Lockstep.exec`), which is how
a property of two runs is reduced to one argument about their texts.

The relation is proved along the text of the two programs: the same operation or the same program in front
of both (`perform`, `seq_of_eq`), two programs in lockstep in front of both (`seq`), and a weaker relation
(`mono`).  Where the results are pairs of a value and a state, `R` usually says that the values are equal and
that the states agree in all that the rest of the program reads.

Two uses are typical.  A program that also writes a log is in lockstep with the one that does not, so what
the log says is about the latter.  And an object that still has something in its members behaves like a
new one if the two go in lockstep from there on.
-/

set_option autoImplicit false

namespace Prog

variable {Op : Type} {Reply : Op → Type} {α β γ δ σ : Type}

/-- The two programs perform the same operations and return results related by `R`. -/
inductive Lockstep (R : α → β → Prop) : Prog Op Reply α → Prog Op Reply β → Prop
  | ret {a : α} {b : β} (h : R a b) : Lockstep R (.ret a) (.ret b)
  | call {op : Op} {k : Reply op → Prog Op Reply α} {k' : Reply op → Prog Op Reply β}
      (h : ∀ r, Lockstep R (k r) (k' r)) : Lockstep R (.call op k) (.call op k')

namespace Lockstep

variable {R R' : α → β → Prop} {S : γ → δ → Prop} {p : Prog Op Reply α} {q : Prog Op Reply β}

theorem pure {a : α} {b : β} (h : R a b) :
    Lockstep R (Pure.pure a : Prog Op Reply α) (Pure.pure b) := .ret h

theorem refl (p : Prog Op Reply α) : Lockstep (· = ·) p p := by
  induction p with
  | ret a => exact .ret rfl
  | call op k ih => exact .call ih

theorem mono (h : Lockstep R p q) (hR : ∀ a b, R a b → R' a b) : Lockstep R' p q := by
  induction h with
  | ret h => exact .ret (hR _ _ h)
  | call _ ih => exact .call ih

theorem bind {f : α → Prog Op Reply γ} {g : β → Prog Op Reply δ} (h : Lockstep R p q)
    (hf : ∀ a b, R a b → Lockstep S (f a) (g b)) : Lockstep S (p >>= f) (q >>= g) := by
  induction h with
  | ret h => exact hf _ _ h
  | call _ ih => exact .call ih

/-- The same program in front of both. -/
theorem seq {f : α → Prog Op Reply γ} {g : α → Prog Op Reply δ}
    (hf : ∀ a, Lockstep S (f a) (g a)) : Lockstep S (p >>= f) (p >>= g) :=
  (refl p).bind fun _ _ h => h ▸ hf _

/-- Equal programs in front of both. -/
theorem seq_of_eq {p q : Prog Op Reply α} {f : α → Prog Op Reply γ} {g : α → Prog Op Reply δ}
    (h : p = q) (hf : ∀ a, Lockstep S (f a) (g a)) : Lockstep S (p >>= f) (q >>= g) :=
  h ▸ seq hf

/-- The same operation in front of both. -/
theorem perform {op : Op} {f : Reply op → Prog Op Reply γ} {g : Reply op → Prog Op Reply δ}
    (hf : ∀ r, Lockstep S (f r) (g r)) : Lockstep S (Prog.perform op >>= f) (Prog.perform op >>= g) :=
  .call hf

/-- **Two programs in lockstep have the same effect.** -/
theorem exec (h : Lockstep R p q) (handler : (op : Op) → σ → Reply op × σ) (s : σ) :
    R (Prog.exec handler p s).1 (Prog.exec handler q s).1 ∧
      (Prog.exec handler p s).2 = (Prog.exec handler q s).2 := by
  induction h generalizing s with
  | ret h => exact ⟨h, rfl⟩
  | call _ ih => exact ih _ _

/-- What the first one returns is related to something. -/
theorem always (h : Lockstep R p q) : p.always fun a => ∃ b, R a b := by
  induction h with
  | ret h => exact ⟨_, h⟩
  | call _ ih => exact ih

/-- They make the same calls. -/
theorem trace (h : Lockstep R p q) (handler : (op : Op) → σ → Reply op × σ) (s : σ) :
    Prog.trace handler p s = Prog.trace handler q s := by
  induction h generalizing s with
  | ret h => rfl
  | call _ ih => exact congrArg (List.cons _) (ih _ _)

end Lockstep

end Prog
