import Mathlib.Logic.Relation
import Mathlib.Data.List.Count

/-!
# Labelled steps

Systems of threads as a relation that says which actions lead from one state to which other. A run is any order of actions.
What every action keeps holds along runs, what every action relates is related along runs, and actions that use up a measure
occur as often as the measure allows.
-/

namespace Labelled

variable {σ α : Type*} (step : σ → α → σ → Prop)

/-- The actions lead from one state to the other. -/
inductive Run (s : σ) : List α → σ → Prop where
  | nil : Run s [] s
  | snoc {l : List α} {s' s'' : σ} {a : α} (h : Run s l s') (ha : step s' a s'') : Run s (l ++ [a]) s''

/-- No action leads out of the set of states. -/
def Kept (I : σ → Prop) : Prop := ∀ s a s', I s → step s a s' → I s'

variable {step} {s s' s'' : σ} {l l' : List α}

theorem Run.append (h : Run step s l s') (h' : Run step s' l' s'') : Run step s (l ++ l') s'' := by
  induction h' with
  | nil => rwa [List.append_nil]
  | snoc _ ha ih =>
    rw [← List.append_assoc]
    exact ih.snoc ha

theorem Run.single {a : α} (ha : step s a s') : Run step s [a] s' := Run.nil.snoc ha

theorem Run.kept {I : σ → Prop} (hI : Kept step I) (h : Run step s l s') (hs : I s) : I s' := by
  induction h with
  | nil => exact hs
  | snoc _ ha ih => exact hI _ _ _ ih ha

/-- What an action relates in the kept states is related by runs. -/
theorem Run.rel {I : σ → Prop} (hI : Kept step I) {R : σ → σ → Prop} (hrefl : ∀ s, R s s)
    (htrans : ∀ s s' s'', R s s' → R s' s'' → R s s'') (hR : ∀ s a s', I s → step s a s' → R s s')
    (h : Run step s l s') (hs : I s) : R s s' := by
  induction h with
  | nil => exact hrefl s
  | snoc h ha ih => exact htrans _ _ _ ih (hR _ _ _ (h.kept hI hs) ha)

/-- Actions that use up a measure, which the others do not raise, occur at most as often as it says. -/
theorem Run.countP_add_le {I : σ → Prop} (hI : Kept step I) {p : α → Bool} {μ : σ → Nat}
    (hμ : ∀ s a s', I s → step s a s' → (if p a then 1 else 0) + μ s' ≤ μ s) (h : Run step s l s') (hs : I s) :
    l.countP p + μ s' ≤ μ s := by
  induction h with
  | nil => simp
  | snoc h ha ih =>
    have := hμ _ _ _ (h.kept hI hs) ha
    rw [List.countP_append, List.countP_singleton]
    omega

end Labelled
