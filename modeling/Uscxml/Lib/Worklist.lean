import Mathlib.Data.Finset.Card
import Mathlib.Data.List.Basic

/-!
# Closing a list under successors

A search that adds the successors of the elements added last until nothing is new. Elements can be added several times in
one round; every round but the last one adds an element that was not there, so that their number bounds the rounds.
-/

namespace Worklist

variable {α : Type*} [DecidableEq α]

/-- The rounds of the search: `expand` lists the successors of all elements of a list, or fails. -/
def close (expand : List α → Option (List α)) : Nat → List α → List α → Option (List α)
  | 0, _, _ => none
  | fuel + 1, additions, reachable =>
    if additions = [] then some reachable
    else
      (expand additions).bind fun found =>
        close expand fuel (found.filter fun a => a ∉ additions ∧ a ∉ reachable) (reachable ++ additions)

variable {expand : List α → Option (List α)} {Next : α → α → Prop} {univ : List α}

/-- The search ends, and what it has found is closed. -/
theorem close_spec (hexpand : ∀ l, (∀ x ∈ l, x ∈ univ) → ∃ found, expand l = some found ∧ ∀ y, y ∈ found ↔ ∃ x ∈ l, Next x y)
    (huniv : ∀ x ∈ univ, ∀ y, Next x y → y ∈ univ) (fuel : Nat) (additions reachable : List α)
    (hadditions : ∀ x ∈ additions, x ∈ univ ∧ x ∉ reachable) (hreachable : ∀ x ∈ reachable, x ∈ univ)
    (hclosed : ∀ x ∈ reachable, ∀ y, Next x y → y ∈ reachable ∨ y ∈ additions)
    (hfuel : univ.toFinset.card < fuel + reachable.toFinset.card) :
    ∃ result, close expand fuel additions reachable = some result ∧ (∀ x ∈ reachable, x ∈ result) ∧
      (∀ x ∈ additions, x ∈ result) ∧ (∀ x ∈ result, x ∈ univ) ∧ ∀ x ∈ result, ∀ y, Next x y → y ∈ result := by
  induction fuel generalizing additions reachable with
  | zero =>
    have hle : reachable.toFinset.card ≤ univ.toFinset.card := by
      apply Finset.card_le_card
      intro x hx
      rw [List.mem_toFinset] at hx ⊢
      exact hreachable x hx
    omega
  | succ fuel ih =>
    by_cases hempty : additions = []
    · subst hempty
      refine ⟨reachable, by simp [close], fun x hx => hx, by simp, hreachable, ?_⟩
      intro x hx y hxy
      simpa using hclosed x hx y hxy
    · obtain ⟨found, hfound, hmem⟩ := hexpand additions fun x hx => (hadditions x hx).1
      have hgrows : reachable.toFinset.card < (reachable ++ additions).toFinset.card := by
        obtain ⟨x, hx⟩ := List.exists_mem_of_ne_nil additions hempty
        apply Finset.card_lt_card
        rw [Finset.ssubset_iff_of_subset]
        · exact ⟨x, by simp [hx], by simpa using (hadditions x hx).2⟩
        · intro y hy
          simp only [List.mem_toFinset, List.mem_append] at hy ⊢
          exact .inl hy
      obtain ⟨result, hresult, hkept, hadded, hin, hnext⟩ := ih
        (found.filter fun a => a ∉ additions ∧ a ∉ reachable) (reachable ++ additions)
        (by
          intro x hx
          obtain ⟨hx, hnew⟩ := List.mem_filter.mp hx
          obtain ⟨z, hz, hzx⟩ := (hmem x).mp hx
          simp only [decide_eq_true_eq] at hnew
          exact ⟨huniv z (hadditions z hz).1 x hzx, by simp [hnew.1, hnew.2]⟩)
        (by
          intro x hx
          rcases List.mem_append.mp hx with hx | hx
          · exact hreachable x hx
          · exact (hadditions x hx).1)
        (by
          intro x hx y hxy
          by_cases hy : y ∈ reachable ++ additions
          · exact .inl hy
          · rcases List.mem_append.mp hx with hx | hx
            · exact absurd (List.mem_append.mpr (hclosed x hx y hxy)) hy
            · refine .inr (List.mem_filter.mpr ⟨(hmem y).mpr ⟨x, hx, hxy⟩, ?_⟩)
              rw [List.mem_append, not_or] at hy
              simp [hy.1, hy.2])
        (by omega)
      refine ⟨result, by rw [close, if_neg hempty, hfound, Option.bind_some]; exact hresult, ?_, ?_, hin, hnext⟩
      · exact fun x hx => hkept x (List.mem_append_left _ hx)
      · exact fun x hx => hkept x (List.mem_append_right _ hx)

end Worklist
