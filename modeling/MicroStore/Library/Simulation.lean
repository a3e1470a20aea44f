import MicroStore.Library.Prog

/-!
# Programs over a simulated state

`R` says what operations do to a state, `R'` what they do to another one.  If `R'` can follow every
outcome of `R` from states related by `K`, then `R'` simulates `R`, and what a program is bound to do
over `R'` it does over `R` (`Prog.wp_simulates`).

This is how a layer that is written against an interface is proved once.  `R'` is an abstract model of what is
below, such as a finite map, and the layer is proved over it; an implementation then has to simulate the
model, operation by operation, and gets the result for its own state.
-/

set_option autoImplicit false

namespace Prog

variable {Op : Type} {Reply : Op → Type} {α σ γ : Type} {R : (op : Op) → σ → Reply op → σ → Prop}
  {R' : (op : Op) → γ → Reply op → γ → Prop} {K : σ → γ → Prop}

/-- What is promised over the simulating state is promised of some state related to it. -/
theorem wp_simulates (hR : ∀ op s g r s', K s g → R op s r s' → ∃ g', K s' g' ∧ R' op g r g')
    {p : Prog Op Reply α} {Q : α → γ → Prop} {s : σ} {g : γ} (hK : K s g)
    (h : wp R' (fun _ _ => True) p Q g) :
    wp R (fun _ _ => True) p (fun a s' => ∃ g', K s' g' ∧ Q a g') s := by
  induction p generalizing s g with
  | ret a => exact ⟨g, hK, h⟩
  | call op k ih =>
    refine ⟨trivial, fun r s' hr => ?_⟩
    obtain ⟨g', hK', hr'⟩ := hR op s g r s' hK hr
    exact ih r hK' (h.2 r g' hr')

end Prog
