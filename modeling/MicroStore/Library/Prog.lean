import Mathlib.Init

/-!
# Programs over an operation signature

A program that talks to an outside world only through a fixed set of operations is a tree: it
either returns, or performs one operation and continues with the reply.  `Prog Op Reply α` is that
tree, and this file is the small program logic the rest of the development runs on.

## What is here

* `exec h p s` runs `p` with a *handler* `h`, which says what every operation answers and does to
  the state, and `trace h p s` lists the operations the run performs, each with the state it finds
  — the points at which the run can be interrupted.
* `wp R I p Q s` is the weakest precondition under a *relation* `R` of allowed outcomes: whatever
  `R` lets the operations do, `p` started in `s` ends in `Q`, and `I` holds whenever an operation
  is about to be performed.  `R` may be nondeterministic, which is how failing operations are
  covered, and it may demand something of the state, which is how assumptions about a run enter.
* `wp_exec` and `wp_trace` carry a `wp` over to every run whose operations stay inside `R`.
* `always Q p` says that `p` returns a value in `Q` whatever it is answered, which is all that a fact
  about the value needs when it does not depend on the state; `calls C p` says so of the operations.

## How it is used

A function of the program gets one lemma, in continuation-passing form: from what holds before it, and from
`Q` of everything it may return, `wp` of the function and what follows.  A caller then steps through its own
text with `wp_bind` and cites these lemmas, and never unfolds a function it calls.  Which operations may
fail, and what is assumed of the states on the way, is in `R` and `I` alone, so a lemma holds of the run
without faults and of every interrupted or faulty run at once.
-/

set_option autoImplicit false

/-- A program performing operations `Op`, where `op` is answered by a `Reply op`. -/
inductive Prog (Op : Type) (Reply : Op → Type) (α : Type) : Type
  | ret (a : α)
  | call (op : Op) (k : Reply op → Prog Op Reply α)

namespace Prog

variable {Op : Type} {Reply : Op → Type} {α β γ σ τ : Type}

/-- Run `p`, then the program `f` makes of its result. -/
def bind : Prog Op Reply α → (α → Prog Op Reply β) → Prog Op Reply β
  | .ret a, f => f a
  | .call op k, f => .call op fun r => (k r).bind f

instance : Monad (Prog Op Reply) where
  pure := .ret
  bind := .bind

/-- The program that performs one operation and returns its reply. -/
def perform (op : Op) : Prog Op Reply (Reply op) := .call op .ret

@[simp] theorem pure_eq_ret (a : α) : (pure a : Prog Op Reply α) = .ret a := rfl

@[simp] theorem ret_bind (a : α) (f : α → Prog Op Reply β) : (.ret a >>= f) = f a := rfl

theorem bind_assoc (p : Prog Op Reply α) (f : α → Prog Op Reply β) (g : β → Prog Op Reply γ) :
    (p >>= f) >>= g = p >>= fun a => f a >>= g := by
  induction p with
  | ret a => rfl
  | call op k ih => exact congrArg (Prog.call op) (funext ih)

/-! ## Running a program

A run is deterministic: what is left open, such as faults, is in the handler or in its state. -/

section run

variable (h : (op : Op) → σ → Reply op × σ)

/-- Run a program with the handler `h`. -/
def exec : Prog Op Reply α → σ → α × σ
  | .ret a, s => (a, s)
  | .call op k, s => (k (h op s).1).exec (h op s).2

/-- The operations a run performs, in order, each with the state it is performed in. -/
def trace : Prog Op Reply α → σ → List (Op × σ)
  | .ret _, _ => []
  | .call op k, s => (op, s) :: (k (h op s).1).trace (h op s).2

@[simp] theorem exec_ret (a : α) (s : σ) : exec h (.ret a : Prog Op Reply α) s = (a, s) := rfl

theorem exec_bind (p : Prog Op Reply α) (f : α → Prog Op Reply β) (s : σ) :
    exec h (p >>= f) s = exec h (f (exec h p s).1) (exec h p s).2 := by
  induction p generalizing s with
  | ret a => rfl
  | call op k ih => exact ih _ _

@[simp] theorem trace_ret (a : α) (s : σ) : trace h (.ret a : Prog Op Reply α) s = [] := rfl

/-- A run of `p >>= f` is a run of `p` followed by a run of `f`. -/
theorem trace_bind (p : Prog Op Reply α) (f : α → Prog Op Reply β) (s : σ) :
    trace h (p >>= f) s
      = trace h p s ++ trace h (f (exec h p s).1) (exec h p s).2 := by
  induction p generalizing s with
  | ret a => rfl
  | call op k ih => exact congrArg ((op, s) :: ·) (ih _ _)

end run

/-! ## Weakest preconditions

`wp` is defined by recursion on the program, so it computes: on a return it is the postcondition, on an
operation it asks for `I` and for all outcomes.  There is no case for a loop, since a loop of the modelled
program is a structural recursion of its own and is dealt with by induction where it is defined. -/

section wp

variable {R : (op : Op) → σ → Reply op → σ → Prop} {I : Op → σ → Prop}

/-- Whatever the outcomes `R` allows, `p` started in `s` ends in `Q`, and every operation it
performs finds a state that satisfies `I`. -/
def wp (R : (op : Op) → σ → Reply op → σ → Prop) (I : Op → σ → Prop) :
    Prog Op Reply α → (α → σ → Prop) → σ → Prop
  | .ret a, Q, s => Q a s
  | .call op k, Q, s => I op s ∧ ∀ r s', R op s r s' → wp R I (k r) Q s'

@[simp] theorem wp_ret {a : α} {Q : α → σ → Prop} {s : σ} :
    wp R I (.ret a : Prog Op Reply α) Q s ↔ Q a s := Iff.rfl

theorem wp_bind {p : Prog Op Reply α} {f : α → Prog Op Reply β} {Q : β → σ → Prop} {s : σ} :
    wp R I (p >>= f) Q s ↔ wp R I p (fun a s' => wp R I (f a) Q s') s := by
  induction p generalizing s with
  | ret a => exact Iff.rfl
  | call op k ih =>
    exact and_congr_right fun _ => forall_congr' fun r => forall_congr' fun s' =>
      imp_congr_right fun _ => ih r

/-- The rule of consequence. -/
theorem wp_mono {p : Prog Op Reply α} {Q Q' : α → σ → Prop} {s : σ} (h : wp R I p Q s)
    (hQ : ∀ a s', Q a s' → Q' a s') : wp R I p Q' s := by
  induction p generalizing s with
  | ret a => exact hQ a s h
  | call op k ih => exact ⟨h.1, fun r s' hr => ih r (h.2 r s' hr)⟩

/-- Sequencing: to run `p >>= f`, run `p` to some `Q` that lets `f` run. -/
theorem wp_seq {p : Prog Op Reply α} {f : α → Prog Op Reply β} {Q : α → σ → Prop}
    {Q' : β → σ → Prop} {s : σ} (h : wp R I p Q s)
    (hf : ∀ a s', Q a s' → wp R I (f a) Q' s') : wp R I (p >>= f) Q' s :=
  wp_bind.2 (wp_mono h hf)

/-- Both of two postconditions. -/
theorem wp_and {p : Prog Op Reply α} {Q Q' : α → σ → Prop} {s : σ} (h : wp R I p Q s)
    (h' : wp R I p Q' s) : wp R I p (fun a s' => Q a s' ∧ Q' a s') s := by
  induction p generalizing s with
  | ret a => exact ⟨h, h'⟩
  | call op k ih => exact ⟨h.1, fun r s' hr => ih r (h.2 r s' hr) (h'.2 r s' hr)⟩

/-- Fewer outcomes, and nothing to be demanded: what is promised still comes true. -/
theorem wp_relax {R' : (op : Op) → σ → Reply op → σ → Prop} {I' : Op → σ → Prop}
    {p : Prog Op Reply α} {Q : α → σ → Prop} {s : σ} (h : wp R' I' p Q s)
    (hR : ∀ op s r s', R op s r s' → R' op s r s') (hI : ∀ op s, I op s) : wp R I p Q s := by
  induction p generalizing s with
  | ret a => exact h
  | call op k ih => exact ⟨hI op s, fun r s' hr => ih r (h.2 r s' (hR op s r s' hr))⟩

/-- **Soundness.**  Let `h` run the operations on a state that `π` projects to the state `wp`
speaks of.  If every operation the run performs has an outcome inside `R`, the run ends in `Q`. -/
theorem wp_exec {h : (op : Op) → τ → Reply op × τ} {π : τ → σ} {p : Prog Op Reply α}
    {Q : α → σ → Prop} {t : τ} (hp : wp R I p Q (π t))
    (hR : ∀ x ∈ trace h p t, R x.1 (π x.2) (h x.1 x.2).1 (π (h x.1 x.2).2)) :
    Q (exec h p t).1 (π (exec h p t).2) := by
  induction p generalizing t with
  | ret a => exact hp
  | call op k ih =>
    refine ih _ (hp.2 _ _ (hR (op, t) List.mem_cons_self)) fun x hx => ?_
    exact hR x (List.mem_cons_of_mem _ hx)

/-- **Soundness for interrupted runs.**  Under the same condition `I` holds at every operation of
the run. -/
theorem wp_trace {h : (op : Op) → τ → Reply op × τ} {π : τ → σ} {p : Prog Op Reply α}
    {Q : α → σ → Prop} {t : τ} (hp : wp R I p Q (π t))
    (hR : ∀ x ∈ trace h p t, R x.1 (π x.2) (h x.1 x.2).1 (π (h x.1 x.2).2)) :
    ∀ x ∈ trace h p t, I x.1 (π x.2) := by
  induction p generalizing t with
  | ret a => intro x hx; simp at hx
  | call op k ih =>
    intro x hx
    rcases List.mem_cons.1 hx with rfl | hx
    · exact hp.1
    · exact ih _ (hp.2 _ _ (hR (op, t) List.mem_cons_self))
        (fun y hy => hR y (List.mem_cons_of_mem _ hy)) x hx

end wp

/-! ## Whatever the replies are

These need no state, no relation and no invariant, and are proved by looking at the text of the program. -/

section always

variable {Q Q' : α → Prop} {p : Prog Op Reply α}

/-- Whatever it is answered, the program returns a value in `Q`. -/
def always (Q : α → Prop) : Prog Op Reply α → Prop
  | .ret a => Q a
  | .call _ k => ∀ r, (k r).always Q

@[simp] theorem always_ret {a : α} : (.ret a : Prog Op Reply α).always Q ↔ Q a := Iff.rfl

theorem always_bind {f : α → Prog Op Reply β} {Q : β → Prop} :
    (p >>= f).always Q ↔ p.always fun a => (f a).always Q := by
  induction p with
  | ret a => exact Iff.rfl
  | call op k ih => exact forall_congr' fun r => ih r

theorem always_mono (h : p.always Q) (hQ : ∀ a, Q a → Q' a) : p.always Q' := by
  induction p with
  | ret a => exact hQ a h
  | call op k ih => exact fun r => ih r (h r)

theorem always_of_forall (p : Prog Op Reply α) (h : ∀ a, Q a) : p.always Q := by
  induction p with
  | ret a => exact h a
  | call op k ih => exact fun r => ih r

/-- Sequencing. -/
theorem always_seq {f : α → Prog Op Reply β} {Q' : β → Prop} (h : p.always Q)
    (hf : ∀ a, Q a → (f a).always Q') : (p >>= f).always Q' :=
  always_bind.2 (always_mono h hf)

/-- Sequencing after a program whose value does not matter. -/
theorem always_skip {f : α → Prog Op Reply β} {Q : β → Prop} (hf : ∀ a, (f a).always Q) :
    (p >>= f).always Q :=
  always_bind.2 (always_of_forall p hf)

/-- It does so where something is known about the outcomes, too. -/
theorem wp_of_always {R : (op : Op) → σ → Reply op → σ → Prop} {I : Op → σ → Prop} {s : σ}
    (hI : ∀ op s, I op s) (hp : p.always Q) : wp R I p (fun a _ => Q a) s := by
  induction p generalizing s with
  | ret a => exact hp
  | call op k ih => exact ⟨hI op s, fun r s' _ => ih r (hp r)⟩

/-- **Soundness**, for every handler. -/
theorem always_exec (h : (op : Op) → σ → Reply op × σ) (hp : p.always Q) (s : σ) :
    Q (exec h p s).1 := by
  induction p generalizing s with
  | ret a => exact hp
  | call op k ih => exact ih _ (hp _) _

end always

/-! ## Whichever operations there are -/

section calls

variable {C C' : Op → Prop} {p : Prog Op Reply α}

/-- Whatever it is answered, the program performs operations in `C` only. -/
def calls (C : Op → Prop) : Prog Op Reply α → Prop
  | .ret _ => True
  | .call op k => C op ∧ ∀ r, (k r).calls C

theorem calls_bind {f : α → Prog Op Reply β} (hp : p.calls C) (hf : ∀ a, (f a).calls C) :
    (p >>= f).calls C := by
  induction p with
  | ret a => exact hf a
  | call op k ih => exact ⟨hp.1, fun r => ih r (hp.2 r)⟩

/-- Sequencing, when something is known about the outcome of the first program. -/
theorem calls_seq {Q : α → Prop} {f : α → Prog Op Reply β} (hp : p.calls C) (hq : p.always Q)
    (hf : ∀ a, Q a → (f a).calls C) : (p >>= f).calls C := by
  induction p with
  | ret a => exact hf a hq
  | call op k ih => exact ⟨hp.1, fun r => ih r (hp.2 r) (hq r)⟩

/-- What these operations preserve is preserved. -/
theorem wp_of_calls {R : (op : Op) → σ → Reply op → σ → Prop} {I : Op → σ → Prop} {J : σ → Prop}
    {s : σ} (hI : ∀ op s, I op s) (hstep : ∀ op s r s', C op → R op s r s' → J s → J s')
    (hp : p.calls C) (hs : J s) : wp R I p (fun _ s' => J s') s := by
  induction p generalizing s with
  | ret a => exact hs
  | call op k ih =>
    exact ⟨hI op s, fun r s' hr => ih r (hp.2 r) (hstep op s r s' hp.1 hr hs)⟩

end calls

end Prog
