import Uscxml.FastMicroStep.Step
import Uscxml.Lib.Fold

/-!
# The selected transitions

The selection loop collects transitions that do not conflict with those selected before them. Its sets are
unions over the selected transitions.
-/

namespace Uscxml

namespace FastMicroStep

variable {ω : Type} (T : Tables) (cb : Callbacks ω)

/-- What holds of the sets of the selection loop in the configuration `C`. -/
structure Selected (C : Finset TreePath) (s : Selection ω) : Prop where
  conflicts : ∀ t, t ∈ s.conflicts ↔ ∃ i ∈ s.transSet, t ∈ (T.trans i).conflicts
  target : ∀ p, p ∈ s.targetSet ↔ ∃ i ∈ s.transSet, p ∈ (T.trans i).target
  exit : ∀ p, p ∈ s.exitSet ↔ ∃ i ∈ s.transSet, p ∈ (T.trans i).exitSet
  active : ∀ i ∈ s.transSet, i ∈ T.transitions ∧ (T.trans i).source ∈ C
  proper : ∀ i ∈ s.transSet, (T.trans i).history = false ∧ (T.trans i).initial = false
  free : ∀ i ∈ s.transSet, ∀ j ∈ s.transSet, i ≠ j → j ∉ (T.trans i).conflicts ∨ i ∉ (T.trans j).conflicts
  found : s.found = true ↔ s.transSet.Nonempty

theorem Selected.start (C : Finset TreePath) (w : ω) : Selected T C ({ env := w } : Selection ω) where
  conflicts := by simp
  target := by simp
  exit := by simp
  active := by simp
  proper := by simp
  free := by simp
  found := by simp

theorem Selected.env {C : Finset TreePath} {s : Selection ω} (h : Selected T C s) (w : ω) :
    Selected T C { s with env := w } := ⟨h.conflicts, h.target, h.exit, h.active, h.proper, h.free, h.found⟩

theorem selectTransition_selected {C : Finset TreePath} {event : Event} {s : Selection ω} {i : TransId}
    (hi : i ∈ T.transitions) (h : Selected T C s) : Selected T C (selectTransition T cb C event s i) := by
  simp only [selectTransition]
  split
  · exact h
  rename_i hpseudo
  split
  case isFalse => exact h
  rename_i hcond
  split
  case isFalse => exact h.env T _
  have hunion : ∀ {α : Type} [DecidableEq α] (S S' : Finset α) (f : TransId → Finset α),
      (∀ x, x ∈ S ↔ ∃ j ∈ s.transSet, x ∈ f j) → S' = f i →
      ∀ x, x ∈ S ∪ S' ↔ ∃ j ∈ insert i s.transSet, x ∈ f j := by
    rintro α _ S S' f hS rfl x
    rw [Finset.mem_union, hS]
    simp only [Finset.mem_insert, exists_eq_or_imp]
    exact or_comm
  refine ⟨hunion _ _ _ h.conflicts rfl, hunion _ _ _ h.target rfl, hunion _ _ _ h.exit rfl, ?_, ?_, ?_, ?_⟩
  · intro j hj
    rcases Finset.mem_insert.mp hj with rfl | hj
    · exact ⟨hi, hcond.1⟩
    · exact h.active j hj
  · intro j hj
    rcases Finset.mem_insert.mp hj with rfl | hj
    · simpa using hpseudo
    · exact h.proper j hj
  · -- The new transition is not among the conflicts of the earlier ones.
    have hfree : ∀ j ∈ s.transSet, i ∉ (T.trans j).conflicts :=
      fun j hj hc => hcond.2.1 ((h.conflicts i).mpr ⟨j, hj, hc⟩)
    intro j hj k hk hne
    rcases Finset.mem_insert.mp hj with rfl | hj'
    · rcases Finset.mem_insert.mp hk with rfl | hk'
      · exact absurd rfl hne
      · exact Or.inr (hfree k hk')
    · rcases Finset.mem_insert.mp hk with rfl | hk'
      · exact Or.inl (hfree j hj')
      · exact h.free j hj' k hk' hne
  · simp

theorem selectTransitions_selected (C : Finset TreePath) (event : Event) (w : ω) :
    Selected T C (selectTransitions T cb C event w) :=
  List.foldl_invariant _ (fun _ _ hi h => selectTransition_selected T cb hi h) (Selected.start T C w)

end FastMicroStep

end Uscxml
