import Mathlib.Logic.Function.Iterate

/-!
# Simulations in which one side may rest

A relation between the states of two systems such that a step of the first one is answered by one step of the second, or by
two of which the first changes nothing that the relation sees. Then whatever one of them reaches, the other one does.
-/

section

variable {σ τ : Type*}

/-- Each step of `f` is one of `g`, or one behind a rest of `g`. -/
def Stutters (R : σ → τ → Prop) (f : σ → σ) (g : τ → τ) : Prop :=
  ∀ s t, R s t → R (f s) (g t) ∨ R s (g t) ∧ R (f s) (g (g t))

theorem Stutters.exists_right {R : σ → τ → Prop} {f : σ → σ} {g : τ → τ} (h : Stutters R f g) {s : σ} {t : τ}
    (hst : R s t) (k : Nat) : ∃ n, R (f^[k] s) (g^[n] t) := by
  induction k with
  | zero => exact ⟨0, hst⟩
  | succ k ih =>
    obtain ⟨n, hn⟩ := ih
    rcases h _ _ hn with hone | ⟨-, htwo⟩
    · refine ⟨n + 1, ?_⟩
      rw [Function.iterate_succ_apply', Function.iterate_succ_apply']
      exact hone
    · refine ⟨n + 2, ?_⟩
      rw [Function.iterate_succ_apply', Function.iterate_succ_apply', Function.iterate_succ_apply']
      exact htwo

theorem Stutters.exists_left {R : σ → τ → Prop} {f : σ → σ} {g : τ → τ} (h : Stutters R f g) {s : σ} {t : τ}
    (hst : R s t) (n : Nat) : ∃ k, R (f^[k] s) (g^[n] t) := by
  induction n with
  | zero => exact ⟨0, hst⟩
  | succ n ih =>
    obtain ⟨k, hk⟩ := ih
    rcases h _ _ hk with hone | ⟨hrest, -⟩
    · refine ⟨k + 1, ?_⟩
      rw [Function.iterate_succ_apply', Function.iterate_succ_apply']
      exact hone
    · refine ⟨k, ?_⟩
      rw [Function.iterate_succ_apply']
      exact hrest

end
