import Mathlib.Algebra.BigOperators.Fin

/-! Finite runs of a labelled step relation. -/

namespace Swinst

variable {S E : Type*}

inductive Runs (step : S → E → S → Prop) : S → List E → S → Prop
  | nil {s : S} : Runs step s [] s
  | cons {s s' s'' : S} {e : E} {es : List E} : step s e s' → Runs step s' es s'' → Runs step s (e :: es) s''

namespace Runs

variable {step : S → E → S → Prop} {s s' s'' : S} {es es' : List E}

theorem append (h : Runs step s es s') (h' : Runs step s' es' s'') : Runs step s (es ++ es') s'' := by
  induction h with
  | nil => exact h'
  | cons hstep _ ih => exact .cons hstep (ih h')

theorem snoc {e : E} (h : Runs step s es s') (h' : step s' e s'') : Runs step s (es ++ [e]) s'' := h.append (.cons h' .nil)

/-- What every step preserves, a run preserves. The labels may be known to be of a kind. -/
theorem preserve_of {P : S → Prop} {Q : E → Prop} (hstep : ∀ s e s', Q e → P s → step s e s' → P s')
    (h : Runs step s es s') (hes : ∀ e ∈ es, Q e) (hs : P s) : P s' := by
  induction h with
  | nil => exact hs
  | @cons s s' _ e es h _ ih =>
    have hs' := hstep s e s' (hes e List.mem_cons_self) hs h
    exact ih (fun e he => hes e (List.mem_cons_of_mem _ he)) hs'

theorem preserve {P : S → Prop} (hstep : ∀ s e s', P s → step s e s' → P s') (h : Runs step s es s') (hs : P s) : P s' :=
  h.preserve_of (Q := fun _ => True) (fun s e s' _ => hstep s e s') (fun _ _ => trivial) hs

/-- The same for what is said of a state and the labels so far -/
theorem preserve_history {P : S → List E → Prop}
    (hstep : ∀ s es e s', P s es → step s e s' → P s' (es ++ [e])) (h : Runs step s es s') (hs : P s es') :
    P s' (es' ++ es) := by
  induction h generalizing es' with
  | nil => rwa [List.append_nil]
  | cons h _ ih =>
    rw [List.append_cons]
    exact ih (hstep _ _ _ _ hs h)

/-- What the steps of a run take from a measure adds up. -/
theorem measure_of {P : S → Prop} {Q : E → Prop} {f : S → Nat} {w : E → Nat}
    (hstep : ∀ s e s', Q e → P s → step s e s' → P s' ∧ f s' + w e = f s) (h : Runs step s es s')
    (hes : ∀ e ∈ es, Q e) (hs : P s) : f s' + (es.map w).sum = f s := by
  induction h with
  | nil => simp
  | @cons s s' _ e es h _ ih =>
    obtain ⟨hs', hmeasure⟩ := hstep s e s' (hes e List.mem_cons_self) hs h
    have := ih (fun e he => hes e (List.mem_cons_of_mem _ he)) hs'
    rw [List.map_cons, List.sum_cons]
    omega

/-- A run with a label comes by a step with it. -/
theorem exists_step {e : E} (h : Runs step s es s') (he : e ∈ es) :
    ∃ es₁ s₁ s₂ es₂, es = es₁ ++ e :: es₂ ∧ Runs step s es₁ s₁ ∧ step s₁ e s₂ ∧ Runs step s₂ es₂ s' := by
  induction h with
  | nil => cases he
  | @cons s s' s'' e' es h hrun ih =>
    rcases List.mem_cons.mp he with rfl | he
    · exact ⟨[], s, s', es, rfl, .nil, h, hrun⟩
    · obtain ⟨es₁, s₁, s₂, es₂, rfl, h₁, h₂, h₃⟩ := ih he
      exact ⟨e' :: es₁, s₁, s₂, es₂, rfl, .cons h h₁, h₂, h₃⟩

end Runs

end Swinst
